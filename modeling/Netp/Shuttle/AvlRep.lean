import Netp.Shuttle.Avl
import Netp.Lib.Avl
import Mathlib.Data.List.Nodup
import Mathlib.Tactic

/-! # What the pointers of the AVL tree mean

`Rep` says that a pointer is the root of a tree of `Netp.Lib.Avl`: child links, parent links and
stored heights agree with the tree. `RepAround` says the same of the frames around a place, with the
heights as they are for a subtree of a given height there. The loops of `avl.c` go up the frames.
-/

namespace Netp.Shuttle
open BinaryTree Netp.Lib.Avl
set_option autoImplicit false

variable {α : Type}

/-- `p` points to the tree, whose root has the parent `par`. -/
def Rep (el : α → AvlEl α) : BinaryTree α → Option α → Option α → Prop
  | .nil, p, _ => p = none
  | .node a l r, p, par =>
      p = some a ∧ (el a).parent = par ∧ (el a).height = (BinaryTree.node a l r).height ∧
        Rep el l (el a).left (some a) ∧ Rep el r (el a).right (some a)

/-- The link on the side of the place, and the link on the other side. -/
def hole : Frame α → AvlEl α → Option α
  | .left _ _, e => e.left
  | .right _ _, e => e.right

def other : Frame α → AvlEl α → Option α
  | .left _ _, e => e.right
  | .right _ _, e => e.left

/-- The frames around a place `p` with the parent `par`, with the heights stored for a subtree of
height `h` there. -/
def RepAround (el : α → AvlEl α) (root : Option α) :
    List (Frame α) → Option α → Option α → ℕ → Prop
  | [], p, par, _ => root = p ∧ par = none
  | f :: c, p, par, h =>
      par = some f.val ∧ hole f (el f.val) = p ∧ Rep el f.sib (other f (el f.val)) (some f.val) ∧
        (el f.val).height = max h f.sib.height + 1 ∧
        RepAround el root c (some f.val) (el f.val).parent (max h f.sib.height + 1)

/-- The elements of the frames. -/
def nodes : List (Frame α) → List α
  | [] => []
  | f :: c => f.val :: toList f.sib ++ nodes c

section Rep
variable {el el' : α → AvlEl α} {root p par : Option α} {t : BinaryTree α} {c : List (Frame α)}

theorem rep_fill (f : Frame α) :
    Rep el (f.fill t) p par ↔ p = some f.val ∧ (el f.val).parent = par ∧
      (el f.val).height = max t.height f.sib.height + 1 ∧
      Rep el t (hole f (el f.val)) (some f.val) ∧
      Rep el f.sib (other f (el f.val)) (some f.val) := by
  cases f with
  | left a r => rfl
  | right a l =>
    show _ ∧ _ ∧ (el a).height = max l.height t.height + 1 ∧ _ ∧ _ ↔
      _ ∧ _ ∧ (el a).height = max t.height l.height + 1 ∧ _ ∧ _
    rw [max_comm l.height]
    tauto

theorem rep_plug :
    Rep el (plug c t) root none ↔
      ∃ p par, Rep el t p par ∧ RepAround el root c p par t.height := by
  induction c generalizing t with
  | nil =>
    constructor
    · intro h
      exact ⟨root, none, h, rfl, rfl⟩
    · rintro ⟨p, par, h, rfl, rfl⟩
      exact h
  | cons f c ih =>
    rw [plug, ih]
    constructor
    · rintro ⟨p, par, h, hc⟩
      obtain ⟨rfl, hpar, hh, ht, hs⟩ := (rep_fill f).mp h
      rw [height_fill] at hc
      exact ⟨_, _, ht, rfl, rfl, hs, hh, hpar ▸ hc⟩
    · rintro ⟨p, par, h, rfl, rfl, hs, hh, hc⟩
      refine ⟨_, _, (rep_fill f).mpr ⟨rfl, rfl, hh, h, hs⟩, ?_⟩
      rw [height_fill]
      exact hc

theorem Rep.mem {x : α} (h : Rep el t p par) (hp : p = some x) : x ∈ toList t := by
  cases t with
  | nil =>
    have : p = none := h
    simp [this] at hp
  | node a l r =>
    have : p = some a := h.1
    rw [this, Option.some.injEq] at hp
    simp [hp]

theorem Rep.congr (h : Rep el t p par) (hl : ∀ x ∈ toList t, el' x = el x) : Rep el' t p par := by
  induction t generalizing p par with
  | nil => exact h
  | node a l r ihl ihr =>
    obtain ⟨hp, hpar, hh, hl', hr'⟩ := h
    have ha := hl a (by simp)
    refine ⟨hp, by rw [ha, hpar], by rw [ha, hh], ?_, ?_⟩
    · rw [ha]
      exact ihl hl' fun x hx => hl x (by simp [hx])
    · rw [ha]
      exact ihr hr' fun x hx => hl x (by simp [hx])

theorem Rep.reparent {par' : Option α} (h : Rep el t p par) (hnodup : (toList t).Nodup)
    (hroot : ∀ x ∈ toList t, p = some x → el' x = { el x with parent := par' })
    (hrest : ∀ x ∈ toList t, p ≠ some x → el' x = el x) : Rep el' t p par' := by
  cases t with
  | nil => exact h
  | node a l r =>
    obtain ⟨hp, -, hh, hl, hr⟩ := h
    have ha := hroot a (by simp) hp
    have hne : ∀ x ∈ toList l ++ toList r, p ≠ some x := by
      intro x hx
      rw [hp]
      simp only [toList_node] at hnodup
      have hmid := (List.nodup_cons.mp (List.nodup_middle.mp hnodup)).1
      intro e
      exact hmid (Option.some.inj e ▸ hx)
    refine ⟨hp, by rw [ha], by rw [ha]; exact hh, ?_, ?_⟩
    · rw [ha]
      exact hl.congr fun x hx => hrest x (by simp [hx]) (hne x (by simp [hx]))
    · rw [ha]
      exact hr.congr fun x hx => hrest x (by simp [hx]) (hne x (by simp [hx]))

theorem Rep.left_mem {x y : α} (h : Rep el t p par) (hx : x ∈ toList t)
    (hy : (el x).left = some y) : y ∈ toList t := by
  induction t generalizing p par with
  | nil => simp at hx
  | node a l r ihl ihr =>
    obtain ⟨-, -, -, hl, hr⟩ := h
    simp only [toList_node, List.mem_append, List.mem_cons] at hx ⊢
    rcases hx with hx | rfl | hx
    · exact Or.inl (ihl hl hx)
    · exact Or.inl (hl.mem hy)
    · exact Or.inr (Or.inr (ihr hr hx))

theorem Rep.right_mem {x y : α} (h : Rep el t p par) (hx : x ∈ toList t)
    (hy : (el x).right = some y) : y ∈ toList t := by
  induction t generalizing p par with
  | nil => simp at hx
  | node a l r ihl ihr =>
    obtain ⟨-, -, -, hl, hr⟩ := h
    simp only [toList_node, List.mem_append, List.mem_cons] at hx ⊢
    rcases hx with hx | rfl | hx
    · exact Or.inl (ihl hl hx)
    · exact Or.inr (Or.inr (hr.mem hy))
    · exact Or.inr (Or.inr (ihr hr hx))

theorem Rep.heightOf {m : AvlTree α} (h : Rep m.el t p par) : m.heightOf p = t.height := by
  cases t with
  | nil =>
    have : p = none := h
    rw [this]
    rfl
  | node a l r =>
    rw [h.1]
    exact h.2.2.1

theorem RepAround.congr {h : ℕ} (hc : RepAround el root c p par h)
    (hl : ∀ x ∈ nodes c, el' x = el x) : RepAround el' root c p par h := by
  induction c generalizing p par h with
  | nil => exact hc
  | cons f c ih =>
    obtain ⟨hpar, hp, hs, hh, hc⟩ := hc
    have hf := hl f.val (by simp [nodes])
    refine ⟨hpar, by rw [hf, hp], ?_, by rw [hf, hh], ?_⟩
    · rw [hf]
      exact hs.congr fun x hx => hl x (by simp [nodes, hx])
    · rw [hf]
      exact ih hc fun x hx => hl x (by simp [nodes, hx])

theorem perm_plug (c : List (Frame α)) (t : BinaryTree α) :
    (toList (plug c t)).Perm (toList t ++ nodes c) := by
  induction c generalizing t with
  | nil => simp [plug, nodes]
  | cons f c ih =>
    refine (ih (f.fill t)).trans ?_
    rw [nodes, ← List.append_assoc]
    apply List.Perm.append_right
    cases f with
    | left a r => exact List.Perm.refl _
    | right a l =>
      show (toList l ++ a :: toList t).Perm (toList t ++ a :: toList l)
      refine List.perm_middle.trans (List.Perm.trans ?_ List.perm_middle.symm)
      exact List.Perm.cons a List.perm_append_comm

theorem length_le_nodes (c : List (Frame α)) : c.length ≤ (nodes c).length := by
  induction c with
  | nil => simp
  | cons f c ih =>
    simp only [nodes, List.length_cons, List.length_append]
    omega

end Rep

/-! ## `recalc_heights` -/

theorem newHeight_eq (m : AvlTree α) (a : α) :
    m.newHeight a = max (m.heightOf (m.el a).left) (m.heightOf (m.el a).right) + 1 := by
  unfold AvlTree.newHeight
  simp only
  split <;> omega

theorem newHeight_frame {m : AvlTree α} {f : Frame α} {t : BinaryTree α} {p : Option α}
    (ht : Rep m.el t p (some f.val)) (hp : hole f (m.el f.val) = p)
    (hs : Rep m.el f.sib (other f (m.el f.val)) (some f.val)) :
    m.newHeight f.val = max t.height f.sib.height + 1 := by
  have h1 := ht.heightOf
  have h2 := hs.heightOf
  rw [newHeight_eq, ← h1, ← h2, ← hp]
  cases f with
  | left a r => rfl
  | right a l => exact congrArg (· + 1) (max_comm _ _)

variable [DecidableEq α]

/-- A change that touches heights of elements of `l` only. -/
structure HeightsOnly (m m' : AvlTree α) (l : List α) : Prop where
  root : m'.root = m.root
  head : m'.head = m.head
  tail : m'.tail = m.tail
  treeSize : m'.treeSize = m.treeSize
  el : ∀ x, x ∉ l → m'.el x = m.el x

omit [DecidableEq α] in
theorem HeightsOnly.refl (m : AvlTree α) (l : List α) : HeightsOnly m m l :=
  ⟨rfl, rfl, rfl, rfl, fun _ _ => rfl⟩

/-- Going up, `recalc_heights` makes the stored heights right for the subtree at the place. Where it
stops early, the heights above were already right. -/
theorem recalcHeights_around {m : AvlTree α} {c : List (Frame α)} {t : BinaryTree α}
    {p par : Option α} {h fuel : ℕ} (ht : Rep m.el t p par) (hc : RepAround m.el m.root c p par h)
    (hnodup : (toList t ++ nodes c).Nodup) (hfuel : c.length ≤ fuel) :
    ∃ m', AvlTree.recalcHeights fuel m par = some m' ∧ Rep m'.el t p par ∧
      RepAround m'.el m'.root c p par t.height ∧ HeightsOnly m m' (nodes c) := by
  induction c generalizing m t p par h fuel with
  | nil =>
    obtain ⟨hroot, rfl⟩ := hc
    exact ⟨m, by cases fuel <;> rfl, ht, ⟨hroot, rfl⟩, HeightsOnly.refl m _⟩
  | cons f c ih =>
    obtain ⟨rfl, hp, hs, hh, hc⟩ := hc
    have hnew := newHeight_frame ht hp hs
    cases fuel with
    | zero => simp at hfuel
    | succ fuel =>
      by_cases hsame : m.newHeight f.val = (m.el f.val).height
      · refine ⟨m, by rw [AvlTree.recalcHeights, if_pos hsame], ht, ?_, HeightsOnly.refl m _⟩
        have heq : max h f.sib.height + 1 = max t.height f.sib.height + 1 := by
          rw [← hh, ← hsame, hnew]
        exact ⟨rfl, hp, hs, by rw [hh, heq], heq ▸ hc⟩
      · -- the new height is stored, and the loop goes on from the parent
        have hfresh : f.val ∉ toList t ∧ f.val ∉ toList f.sib ∧ f.val ∉ nodes c := by
          simp only [nodes] at hnodup
          grind
        have hkeep : ∀ x, x ≠ f.val →
            (m.setHeight f.val (m.newHeight f.val)).el x = m.el x :=
          fun x hx => Function.update_of_ne hx _ _
        have hval : (m.setHeight f.val (m.newHeight f.val)).el f.val =
            { m.el f.val with height := m.newHeight f.val } := Function.update_self _ _ _
        have hfill : Rep (m.setHeight f.val (m.newHeight f.val)).el (f.fill t) (some f.val)
            (m.el f.val).parent := by
          refine (rep_fill f).mpr ⟨rfl, by rw [hval], by rw [hval]; exact hnew, ?_, ?_⟩
          · have hhole : hole f ((m.setHeight f.val (m.newHeight f.val)).el f.val) = p := by
              rw [hval, ← hp]
              cases f <;> rfl
            rw [hhole]
            exact ht.congr fun x hx => hkeep x (by grind)
          · have hother : other f ((m.setHeight f.val (m.newHeight f.val)).el f.val) =
                other f (m.el f.val) := by
              rw [hval]
              cases f <;> rfl
            rw [hother]
            exact hs.congr fun x hx => hkeep x (by grind)
        have hup : RepAround (m.setHeight f.val (m.newHeight f.val)).el
            (m.setHeight f.val (m.newHeight f.val)).root c (some f.val) (m.el f.val).parent
            (max h f.sib.height + 1) := hc.congr fun x hx => hkeep x (by grind)
        have hperm : (toList (f.fill t)).Perm (toList t ++ f.val :: toList f.sib) := by
          simpa [nodes, plug] using perm_plug [f] t
        have hnodup' : (toList (f.fill t) ++ nodes c).Nodup := by
          have hp' := (hperm.append_right (nodes c)).nodup_iff
          apply hp'.mpr
          simpa [nodes] using hnodup
        obtain ⟨m', hrun, hrep, haround, hframe⟩ := ih hfill hup hnodup' (by simpa using hfuel)
        obtain ⟨-, hpar', hh', ht', hs'⟩ := (rep_fill f).mp hrep
        have hhole' : hole f (m'.el f.val) = p := by
          rw [hframe.el f.val hfresh.2.2, hval, ← hp]
          cases f <;> rfl
        refine ⟨m', ?_, by rw [← hhole']; exact ht', ?_, ?_⟩
        · rw [AvlTree.recalcHeights, if_neg hsame]
          exact hrun
        · rw [height_fill] at haround
          exact ⟨rfl, hhole', hs', hh', hpar' ▸ haround⟩
        · refine ⟨hframe.root, hframe.head, hframe.tail, hframe.treeSize, ?_⟩
          intro x hx
          simp only [nodes, List.cons_append, List.mem_cons, List.mem_append, not_or] at hx
          rw [hframe.el x hx.2.2, hkeep x hx.1]

end Netp.Shuttle
