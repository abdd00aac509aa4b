import Mathlib.Data.Tree.Basic
import Mathlib.Data.List.Basic
import Mathlib.Tactic

/-! # Height-balanced trees

Trees are Mathlib's `BinaryTree`. A place in a tree is a subtree and the list of frames above it, the
nearest first. `repair` goes up from a subtree that has grown by one, to the first frame whose two
sides differ by more than one, and rotates there; `balanced_repair` says that the one rotation is
enough.
-/

namespace Netp.Lib.Avl
open BinaryTree
set_option autoImplicit false

variable {α : Type}

/-- The values in order. -/
def toList : BinaryTree α → List α
  | .nil => []
  | .node a l r => toList l ++ a :: toList r

@[simp] theorem toList_nil : toList (.nil : BinaryTree α) = [] := rfl

@[simp] theorem toList_node (a : α) (l r : BinaryTree α) :
    toList (.node a l r) = toList l ++ a :: toList r := rfl

theorem height_le_length (t : BinaryTree α) : t.height ≤ (toList t).length := by
  induction t with
  | nil => simp
  | node a l r ihl ihr =>
    simp only [height, toList_node, List.length_append, List.length_cons]
    omega

/-- Heights of siblings differ by at most one. -/
def Balanced : BinaryTree α → Prop
  | .nil => True
  | .node _ l r =>
      l.height ≤ r.height + 1 ∧ r.height ≤ l.height + 1 ∧ Balanced l ∧ Balanced r

/-- One level of the path to a place: the value there and the subtree on the other side. -/
inductive Frame (α : Type)
  | left (a : α) (r : BinaryTree α)
  | right (a : α) (l : BinaryTree α)

namespace Frame

def fill : Frame α → BinaryTree α → BinaryTree α
  | left a r, t => .node a t r
  | right a l, t => .node a l t

def sib : Frame α → BinaryTree α
  | left _ r => r
  | right _ l => l

def val : Frame α → α
  | left a _ => a
  | right a _ => a

/-- A subtree of height `h` fits in the frame. -/
def Even (f : Frame α) (h : ℕ) : Prop := h ≤ f.sib.height + 1 ∧ f.sib.height ≤ h + 1

instance instDecidableEven (f : Frame α) (h : ℕ) : Decidable (f.Even h) :=
  inferInstanceAs (Decidable (_ ∧ _))

end Frame

@[simp] theorem height_fill (f : Frame α) (t : BinaryTree α) :
    (f.fill t).height = max t.height f.sib.height + 1 := by
  cases f with
  | left a r => rfl
  | right a l =>
    show max l.height t.height + 1 = max t.height l.height + 1
    rw [max_comm]

theorem balanced_fill (f : Frame α) (t : BinaryTree α) :
    Balanced (f.fill t) ↔ Balanced t ∧ f.Even t.height ∧ Balanced f.sib := by
  cases f with
  | left a r =>
    show _ ∧ _ ∧ _ ∧ _ ↔ _ ∧ (_ ∧ _) ∧ _
    tauto
  | right a l =>
    show _ ∧ _ ∧ _ ∧ _ ↔ _ ∧ (_ ∧ _) ∧ _
    tauto

/-- The tree around a place. -/
def plug : List (Frame α) → BinaryTree α → BinaryTree α
  | [], t => t
  | f :: c, t => plug c (f.fill t)

/-- The tree around a place of height `h` is balanced outside it. -/
def Around : List (Frame α) → ℕ → Prop
  | [], _ => True
  | f :: c, h => f.Even h ∧ Balanced f.sib ∧ Around c (max h f.sib.height + 1)

theorem balanced_plug (c : List (Frame α)) (t : BinaryTree α) :
    Balanced (plug c t) ↔ Balanced t ∧ Around c t.height := by
  induction c generalizing t with
  | nil => simp [plug, Around]
  | cons f c ih =>
    rw [plug, ih, balanced_fill, height_fill, Around]
    tauto

/-! ## The values around a place -/

/-- The values before and after a place. -/
def before : List (Frame α) → List α
  | [] => []
  | .left _ _ :: c => before c
  | .right a l :: c => before c ++ (toList l ++ [a])

def after : List (Frame α) → List α
  | [] => []
  | .left a r :: c => (a :: toList r) ++ after c
  | .right _ _ :: c => after c

theorem toList_plug (c : List (Frame α)) (t : BinaryTree α) :
    toList (plug c t) = before c ++ toList t ++ after c := by
  induction c generalizing t with
  | nil => simp [plug, before, after]
  | cons f c ih =>
    rw [plug, ih]
    cases f with
    | left a r => simp [Frame.fill, before, after]
    | right a l => simp [Frame.fill, before, after]

/-! ## Rotation -/

/-- The two levels above a place rearranged: the middle one of the three values on top. -/
def rotate : Frame α → Frame α → BinaryTree α → BinaryTree α
  | .right p t2, .right gp t1, .node n t3 t4 => .node p (.node gp t1 t2) (.node n t3 t4)
  | .left p t4, .right gp t1, .node n t2 t3 => .node n (.node gp t1 t2) (.node p t3 t4)
  | .right p t1, .left gp t4, .node n t2 t3 => .node n (.node p t1 t2) (.node gp t3 t4)
  | .left p t3, .left gp t4, .node n t1 t2 => .node p (.node n t1 t2) (.node gp t3 t4)
  | f, g, .nil => g.fill (f.fill .nil)

theorem toList_rotate (f g : Frame α) (t : BinaryTree α) :
    toList (rotate f g t) = toList (g.fill (f.fill t)) := by
  cases t with
  | nil => cases f <;> cases g <;> rfl
  | node n l r => cases f <;> cases g <;> simp [rotate, Frame.fill]

/-- A rotation where the place is one higher than its sibling and two higher than the subtree across
the upper frame: the result is balanced and no higher than before the place grew. -/
theorem rotate_balanced {f g : Frame α} {t : BinaryTree α} {h : ℕ} (ht : Balanced t)
    (hf : Balanced f.sib) (hg : Balanced g.sib) (hth : t.height = h + 1)
    (hfh : f.sib.height = h) (hgh : g.sib.height = h) :
    Balanced (rotate f g t) ∧ (rotate f g t).height = h + 2 := by
  cases t with
  | nil => simp at hth
  | node n l r =>
    obtain ⟨hlr, hrl, hl, hr⟩ := ht
    simp only [height] at hth
    cases f with
    | left p s =>
      have hs : s.height = h := hfh
      cases g with
      | left gp u =>
        have hu : u.height = h := hgh
        exact ⟨⟨by simp only [height]; omega, by simp only [height]; omega, ⟨hlr, hrl, hl, hr⟩,
          by omega, by omega, hf, hg⟩, by simp only [rotate, height]; omega⟩
      | right gp u =>
        have hu : u.height = h := hgh
        exact ⟨⟨by simp only [height]; omega, by simp only [height]; omega,
          ⟨by omega, by omega, hg, hl⟩, by omega, by omega, hr, hf⟩,
          by simp only [rotate, height]; omega⟩
    | right p s =>
      have hs : s.height = h := hfh
      cases g with
      | left gp u =>
        have hu : u.height = h := hgh
        exact ⟨⟨by simp only [height]; omega, by simp only [height]; omega,
          ⟨by omega, by omega, hf, hl⟩, by omega, by omega, hr, hg⟩,
          by simp only [rotate, height]; omega⟩
      | right gp u =>
        have hu : u.height = h := hgh
        exact ⟨⟨by simp only [height]; omega, by simp only [height]; omega,
          ⟨by omega, by omega, hg, hf⟩, hlr, hrl, hl, hr⟩,
          by simp only [rotate, height]; omega⟩

/-! ## The first uneven frame -/

/-- A place with at least two frames above it. -/
structure Spot (α : Type) where
  tree : BinaryTree α
  parent : Frame α
  grand : Frame α
  rest : List (Frame α)

/-- The first place, going up, whose upper frame is uneven. -/
def firstUneven : BinaryTree α → List (Frame α) → Option (Spot α)
  | t, f :: g :: c =>
      if g.Even (f.fill t).height then firstUneven (f.fill t) (g :: c) else some ⟨t, f, g, c⟩
  | _, _ => none

/-- Rotate at the first uneven frame, if there is one. -/
def repair (t : BinaryTree α) (c : List (Frame α)) : BinaryTree α :=
  match firstUneven t c with
  | none => plug c t
  | some s => plug s.rest (rotate s.parent s.grand s.tree)

/-- Going up stays in the same tree. -/
theorem firstUneven_plug {t : BinaryTree α} {c : List (Frame α)} {s : Spot α}
    (h : firstUneven t c = some s) :
    plug (s.parent :: s.grand :: s.rest) s.tree = plug c t := by
  induction c generalizing t with
  | nil => simp [firstUneven] at h
  | cons f c ih =>
    cases c with
    | nil => simp [firstUneven] at h
    | cons g c =>
      rw [firstUneven] at h
      split at h
      · exact ih h
      · cases h
        rfl

theorem toList_repair (t : BinaryTree α) (c : List (Frame α)) :
    toList (repair t c) = toList (plug c t) := by
  unfold repair
  cases h : firstUneven t c with
  | none => rfl
  | some s =>
    rw [← firstUneven_plug h]
    simp only [plug]
    rw [toList_plug, toList_plug, toList_rotate]

/-- Where the tree around a place is balanced there is no uneven frame. -/
theorem firstUneven_around {t : BinaryTree α} {c : List (Frame α)} (h : Around c t.height) :
    firstUneven t c = none := by
  induction c generalizing t with
  | nil => rfl
  | cons f c ih =>
    cases c with
    | nil => rfl
    | cons g c =>
      have hc : Around (g :: c) (f.fill t).height := by
        rw [height_fill]
        exact h.2.2
      rw [firstUneven, if_pos hc.1]
      exact ih hc

/-- A place that has grown by one, in a tree that was balanced before: one rotation is enough. -/
theorem balanced_repair {t : BinaryTree α} {c : List (Frame α)} {h : ℕ} (ht : Balanced t)
    (hth : t.height = h + 1) (hc : Around c h) (hfirst : ∀ f ∈ c.head?, f.Even (h + 1)) :
    Balanced (repair t c) := by
  induction c generalizing t h with
  | nil => exact ht
  | cons f c ih =>
    obtain ⟨⟨hf1, hf2⟩, hfb, hc⟩ := hc
    have hf : f.Even t.height := hth ▸ hfirst f (by simp)
    have hfill : Balanced (f.fill t) := (balanced_fill f t).mpr ⟨ht, hf, hfb⟩
    by_cases hsame : f.sib.height = h + 1
    · -- the other side is as high as the place is now: nothing above sees a change
      have hheight : max h f.sib.height + 1 = (f.fill t).height := by
        rw [height_fill]
        omega
      rw [hheight] at hc
      have hnone : firstUneven t (f :: c) = none :=
        firstUneven_around ⟨hf, hfb, by rw [← height_fill]; exact hc⟩
      rw [repair, hnone]
      exact (balanced_plug c (f.fill t)).mpr ⟨hfill, hc⟩
    · have hlow := hf.1
      have hsib : f.sib.height = h := by omega
      have hgrown : (f.fill t).height = h + 1 + 1 := by
        rw [height_fill]
        omega
      have hold : max h f.sib.height + 1 = h + 1 := by omega
      rw [hold] at hc
      cases c with
      | nil => exact hfill
      | cons g c =>
        by_cases hg : g.Even (f.fill t).height
        · have hup : ∀ f' ∈ (g :: c).head?, f'.Even (h + 1 + 1) := by
            intro f' hf'
            cases hf'
            exact hgrown ▸ hg
          have hrep : repair t (f :: g :: c) = repair (f.fill t) (g :: c) := by
            simp only [repair, firstUneven, if_pos hg]
            rfl
          rw [hrep]
          exact ih hfill hgrown hc hup
        · obtain ⟨⟨hg1, hg2⟩, hgb, hc⟩ := hc
          have hgsib : g.sib.height = h := by
            rw [hgrown] at hg
            unfold Frame.Even at hg
            omega
          have hrep : repair t (f :: g :: c) = plug c (rotate f g t) := by
            simp only [repair, firstUneven, if_neg hg]
          obtain ⟨hrot, hroth⟩ := rotate_balanced ht hfb hgb hth hsib hgsib
          rw [hrep]
          refine (balanced_plug c _).mpr ⟨hrot, ?_⟩
          have hsame : max (h + 1) g.sib.height + 1 = h + 2 := by omega
          rw [hsame] at hc
          rw [hroth]
          exact hc

/-! ## Searching -/

/-- Where the search for a key ends: at an element, or at an empty place. `k a` has the sign of the
key compared with `a`. -/
inductive Located (α : Type)
  | found (a : α)
  | place (c : List (Frame α))

def locate (k : α → ℤ) : BinaryTree α → List (Frame α) → Located α
  | .nil, c => .place c
  | .node a l r, c =>
      if k a < 0 then locate k l (.left a r :: c)
      else if k a > 0 then locate k r (.right a l :: c)
      else .found a

/-- The elements are in an order that fits the comparisons with the key. -/
def Ordered (k : α → ℤ) (l : List α) : Prop := l.Pairwise fun a b => k a ≤ 0 → k b < 0

theorem locate_found {k : α → ℤ} {t : BinaryTree α} {c : List (Frame α)} {a : α}
    (h : locate k t c = .found a) : a ∈ toList t ∧ k a = 0 := by
  induction t generalizing c with
  | nil => cases h
  | node b l r ihl ihr =>
    rw [locate] at h
    split at h
    · exact ⟨by simp [(ihl h).1], (ihl h).2⟩
    · split at h
      · exact ⟨by simp [(ihr h).1], (ihr h).2⟩
      · cases h
        exact ⟨by simp, by omega⟩

theorem locate_plug {k : α → ℤ} {t : BinaryTree α} {c c' : List (Frame α)}
    (h : locate k t c = .place c') : plug c' .nil = plug c t := by
  induction t generalizing c with
  | nil =>
    cases h
    rfl
  | node b l r ihl ihr =>
    rw [locate] at h
    split at h
    · exact ihl h
    · split at h
      · exact ihr h
      · cases h

/-- The empty place the search ends at is where the key belongs. -/
theorem locate_place {k : α → ℤ} {t : BinaryTree α} {c c' : List (Frame α)}
    (hord : Ordered k (toList t)) (hb : ∀ y ∈ before c, 0 < k y) (ha : ∀ y ∈ after c, k y < 0)
    (h : locate k t c = .place c') : (∀ y ∈ before c', 0 < k y) ∧ ∀ y ∈ after c', k y < 0 := by
  induction t generalizing c with
  | nil =>
    cases h
    exact ⟨hb, ha⟩
  | node b l r ihl ihr =>
    rw [Ordered, toList_node, List.pairwise_append] at hord
    obtain ⟨hl, hbr, hlb⟩ := hord
    obtain ⟨hbr, hr⟩ := List.pairwise_cons.mp hbr
    rw [locate] at h
    split at h
    case isTrue hlt =>
      refine ihl (c := .left b r :: c) hl hb ?_ h
      intro y hy
      simp only [after, List.cons_append, List.mem_cons, List.mem_append] at hy
      rcases hy with rfl | hy | hy
      · exact hlt
      · exact hbr y hy (le_of_lt hlt)
      · exact ha y hy
    case isFalse hge =>
      split at h
      case isFalse => cases h
      case isTrue hgt =>
        refine ihr (c := .right b l :: c) hr ?_ ha h
        intro y hy
        simp only [before, List.mem_append, List.mem_singleton] at hy
        rcases hy with hy | hy | rfl
        · exact hb y hy
        · by_contra hle
          exact hge (hlb y hy b (by simp) (by omega))
        · exact hgt

end Netp.Lib.Avl
