import Mathlib.Data.List.Nodup
import Netp.Lib.Chain

/-! # Splicing chains

A chain is put between two parts of another one, or a cell is taken out of it, by new links at the last
cells in front. Where there is no cell in front the start of the chain changes. A chain in both directions
takes each change twice, the second time along the reversed cells.

Nothing here names a program.
-/

namespace Netp.Lib
set_option autoImplicit false

section Splice
variable {α β : Type} [DecidableEq α] {emb : α → β} {next : α → β} {x y z e : β} {as bs ys : List α}
  {a last : α}

/-- The last cell of `as` gets the link `y`; without one, `y` is the start. -/
def relink (next : α → β) (x : β) (as : List α) (y : β) : (α → β) × β :=
  match as.getLast? with
  | none => (next, y)
  | some p => (Function.update next p y, x)

theorem relink_concat (p : α) : relink next x (as ++ [p]) y = (Function.update next p y, x) := by
  rw [relink, List.getLast?_concat]

/-- The link of a cell that is not the last one stays. -/
theorem relink_of_notMem {c : α} (hc : c ∉ as) : (relink next x as y).1 c = next c := by
  rcases List.eq_nil_or_concat as with rfl | ⟨as, p, rfl⟩
  · rfl
  · rw [List.concat_eq_append, relink_concat]
    refine Function.update_of_ne ?_ _ _
    rintro rfl
    exact hc (by simp)

theorem Seg.setLast {v : β} (h : Seg emb next x (as ++ [last]) v) (hlast : last ∉ as) (w : β) :
    Seg emb (Function.update next last w) x (as ++ [last]) w :=
  seg_snoc.2 ⟨(seg_snoc.1 h).1.update hlast, Function.update_self _ _ _⟩

theorem Seg.relink (h : Seg emb next x as z) (hnodup : as.Nodup) (y : β) :
    Seg emb (Lib.relink next x as y).1 (Lib.relink next x as y).2 as y := by
  rcases List.eq_nil_or_concat as with rfl | ⟨as, p, rfl⟩
  · exact rfl
  · rw [List.concat_eq_append] at h hnodup ⊢
    rw [relink_concat]
    refine h.setLast ?_ y
    intro hp
    exact (List.nodup_append.1 hnodup).2.2 p hp p List.mem_cons_self rfl

theorem Seg.relink_other (h : Seg emb next y bs e) (hdisj : as.Disjoint bs) (w : β) :
    Seg emb (Lib.relink next x as w).1 y bs e :=
  h.congr fun _ hc => relink_of_notMem fun hmem => hdisj hmem hc

/-- A chain `ys` is put between `as` and `bs`. -/
theorem Seg.splice {w : β} (has : Seg emb next x as z) (hbs : Seg emb next z bs e)
    (hys : Seg emb next y (ys ++ [last]) w) (hnodup : (as ++ ((ys ++ [last]) ++ bs)).Nodup) :
    Seg emb (Lib.relink (Function.update next last z) x as y).1
      (Lib.relink (Function.update next last z) x as y).2 (as ++ ((ys ++ [last]) ++ bs)) e := by
  obtain ⟨hnas, hnrest, hdisj⟩ := List.nodup_append'.1 hnodup
  obtain ⟨hnys, -, hdisj'⟩ := List.nodup_append'.1 hnrest
  obtain ⟨hdys, hdbs⟩ := List.disjoint_append_right.1 hdisj
  have hlast : last ∈ ys ++ [last] := List.mem_append_right _ List.mem_cons_self
  have hlast' : last ∉ ys := fun h =>
    List.disjoint_right.1 (List.nodup_append'.1 hnys).2.2 List.mem_cons_self h
  have has' := has.update (v := z) fun h => hdys h hlast
  have hys' := hys.setLast hlast' z
  have hbs' := hbs.update (v := z) fun h => hdisj' hlast h
  exact seg_append.2 ⟨y, has'.relink hnas y,
    seg_append.2 ⟨z, hys'.relink_other hdys y, hbs'.relink_other hdbs y⟩⟩

/-- The cell between `as` and `bs` is taken out. -/
theorem Seg.cut (h : Seg emb next x (as ++ a :: bs) e) (hnodup : (as ++ a :: bs).Nodup) :
    Seg emb (Lib.relink next x as (next a)).1 (Lib.relink next x as (next a)).2 (as ++ bs) e := by
  obtain ⟨z, has, rfl, hbs⟩ := seg_append.1 h
  obtain ⟨hnas, -, hdisj⟩ := List.nodup_append'.1 hnodup
  have hdbs : as.Disjoint bs := fun c hc hc' => hdisj hc (List.mem_cons_of_mem _ hc')
  exact seg_append.2 ⟨next a, has.relink hnas _, hbs.relink_other hdbs _⟩

end Splice

/-! ## A null link at the end -/

section Null
variable {α : Type} {next : α → Option α} {x : Option α} {l : List α}

/-- A chain that ends in the null link starts at its first cell. -/
theorem Seg.start (h : Seg some next x l none) : x = l.head? := by
  cases l with
  | nil => exact h
  | cons a l => exact h.1

/-- What is behind a part of a chain is where the rest starts. -/
theorem seg_append_null {m : List α} : Seg some next x (l ++ m) none ↔
    Seg some next x l m.head? ∧ Seg some next m.head? m none := by
  rw [seg_append]
  constructor
  · rintro ⟨z, hl, hm⟩
    rw [hm.start] at hl hm
    exact ⟨hl, hm⟩
  · rintro ⟨hl, hm⟩
    exact ⟨_, hl, hm⟩

end Null

end Netp.Lib
