import Mathlib.Data.Nat.Notation
import Mathlib.Data.List.Basic

/-! # Computations with fuel

`f n` is what a computation comes to with fuel `n`, if anything; more fuel changes no result (`Grows`).
`Yields f a`: it comes to `a` with enough fuel. A sequence of computations yields what its parts yield
one after the other. Nothing here names a program.
-/

namespace Netp.Lib
set_option autoImplicit false
variable {α β σ : Type} {x y : Option α} {f : ℕ → Option α} {a b : α} {m n : ℕ}

/-- `y` is `x`, where `x` is a result. -/
def Below (x y : Option α) : Prop := ∀ a, x = some a → y = some a

theorem Below.refl (x : Option α) : Below x x := fun _ h => h

theorem Below.bind {g g' : α → Option β} (h : Below x y) (hg : ∀ a, Below (g a) (g' a)) :
    Below (x.bind g) (y.bind g') := by
  intro b hb
  obtain ⟨a, ha, hga⟩ := Option.bind_eq_some_iff.1 hb
  exact Option.bind_eq_some_iff.2 ⟨a, h a ha, hg a b hga⟩

theorem Below.map (h : Below x y) (g : α → β) : Below (x.map g) (y.map g) := by
  intro b hb
  obtain ⟨a, ha, hga⟩ := Option.map_eq_some_iff.1 hb
  exact Option.map_eq_some_iff.2 ⟨a, h a ha, hga⟩

theorem Below.foldlM {g g' : σ → β → Option σ} (h : ∀ s b, Below (g s b) (g' s b)) (bs : List β)
    (s : σ) : Below (bs.foldlM g s) (bs.foldlM g' s) := by
  induction bs generalizing s with
  | nil => exact .refl _
  | cons b bs ih =>
    rw [List.foldlM_cons, List.foldlM_cons]
    exact (h s b).bind fun s' => ih s'

/-- More fuel changes no result. -/
def Grows (f : ℕ → Option α) : Prop := ∀ n, Below (f n) (f (n + 1))

/-- `f` comes to `a`. -/
def Yields (f : ℕ → Option α) (a : α) : Prop := ∃ n, f n = some a

def Returns (f : ℕ → Option α) : Prop := ∃ a, Yields f a

theorem Grows.le (h : Grows f) (hm : m ≤ n) : Below (f m) (f n) := by
  induction hm with
  | refl => exact .refl _
  | step _ ih => exact fun a ha => h _ a (ih a ha)

theorem Grows.unique (h : Grows f) (ha : Yields f a) (hb : Yields f b) : a = b := by
  obtain ⟨m, ha⟩ := ha
  obtain ⟨n, hb⟩ := hb
  have h1 := h.le (Nat.le_max_left m n) a ha
  have h2 := h.le (Nat.le_max_right m n) b hb
  exact Option.some.inj (h1.symm.trans h2)

theorem Grows.const (x : Option α) : Grows fun _ => x := fun _ => .refl x

theorem Grows.bind {g : ℕ → α → Option β} (h : Grows f) (hg : ∀ a, Grows fun n => g n a) :
    Grows fun n => (f n).bind (g n) := fun n => (h n).bind fun a => hg a n

theorem Grows.map (h : Grows f) (g : α → β) : Grows fun n => (f n).map g := fun n => (h n).map g

theorem Grows.foldlM {g : ℕ → σ → β → Option σ} (h : ∀ s b, Grows fun n => g n s b) (bs : List β)
    (s : σ) : Grows fun n => bs.foldlM (g n) s := fun n => Below.foldlM (fun s b => h s b n) bs s

/-! ## What a sequence comes to -/

@[simp] theorem yields_const : Yields (fun _ => x) a ↔ x = some a :=
  ⟨fun ⟨_, h⟩ => h, fun h => ⟨0, h⟩⟩

/-- One unit of fuel goes into the call itself. -/
theorem yields_succ (h : Grows f) : Yields f a ↔ Yields (fun n => f (n + 1)) a := by
  constructor
  · rintro ⟨n, hn⟩
    exact ⟨n, h n a hn⟩
  · rintro ⟨n, hn⟩
    exact ⟨n + 1, hn⟩

theorem yields_bind {g : ℕ → α → Option β} (h : Grows f) (hg : ∀ a, Grows fun n => g n a) {b : β} :
    Yields (fun n => (f n).bind (g n)) b ↔ ∃ a, Yields f a ∧ Yields (fun n => g n a) b := by
  constructor
  · rintro ⟨n, hn⟩
    obtain ⟨a, ha, hb⟩ := Option.bind_eq_some_iff.1 hn
    exact ⟨a, ⟨n, ha⟩, ⟨n, hb⟩⟩
  · rintro ⟨a, ⟨m, ha⟩, ⟨n, hb⟩⟩
    refine ⟨max m n, Option.bind_eq_some_iff.2 ⟨a, ?_, ?_⟩⟩
    · exact h.le (Nat.le_max_left m n) a ha
    · exact (hg a).le (Nat.le_max_right m n) b hb

theorem yields_map {g : α → β} {b : β} :
    Yields (fun n => (f n).map g) b ↔ ∃ a, Yields f a ∧ g a = b := by
  constructor
  · rintro ⟨n, hn⟩
    obtain ⟨a, ha, hb⟩ := Option.map_eq_some_iff.1 hn
    exact ⟨a, ⟨n, ha⟩, hb⟩
  · rintro ⟨a, ⟨n, ha⟩, hb⟩
    exact ⟨n, Option.map_eq_some_iff.2 ⟨a, ha, hb⟩⟩

@[simp] theorem returns_map {g : α → β} : Returns (fun n => (f n).map g) ↔ Returns f := by
  constructor
  · rintro ⟨b, hb⟩
    obtain ⟨a, ha, -⟩ := yields_map.1 hb
    exact ⟨a, ha⟩
  · rintro ⟨a, ha⟩
    exact ⟨g a, yields_map.2 ⟨a, ha, rfl⟩⟩

theorem returns_bind {g : ℕ → α → Option β} (h : Grows f) (hg : ∀ a, Grows fun n => g n a) :
    Returns (fun n => (f n).bind (g n)) ↔ ∃ a, Yields f a ∧ Returns (fun n => g n a) := by
  constructor
  · rintro ⟨b, hb⟩
    obtain ⟨a, ha, hb⟩ := (yields_bind h hg).1 hb
    exact ⟨a, ha, b, hb⟩
  · rintro ⟨a, ha, b, hb⟩
    exact ⟨b, (yields_bind h hg).2 ⟨a, ha, hb⟩⟩

/-- Where it does not depend on the first result whether the second part returns. -/
theorem returns_bind_iff {g : ℕ → α → Option β} {p : Prop} (h : Grows f)
    (hg : ∀ a, Grows fun n => g n a) (hp : ∀ a, Returns (fun n => g n a) ↔ p) :
    Returns (fun n => (f n).bind (g n)) ↔ Returns f ∧ p := by
  rw [returns_bind h hg]
  simp only [hp, exists_and_right]
  rfl

theorem returns_const : Returns (fun _ : ℕ => x) ↔ x.isSome := by
  simp only [Returns, yields_const, Option.isSome_iff_exists]

section Fold
variable {g : ℕ → σ → β → Option σ} (hg : ∀ s b, Grows fun n => g n s b)

include hg in
theorem returns_foldlM_cons (b : β) (bs : List β) (s : σ) :
    Returns (fun n => (b :: bs).foldlM (g n) s) ↔
      ∃ s', Yields (fun n => g n s b) s' ∧ Returns (fun n => bs.foldlM (g n) s') := by
  simp only [List.foldlM_cons]
  exact returns_bind (hg s b) fun s' => Grows.foldlM hg bs s'

include hg in
/-- Where it does not depend on the state whether a step returns. -/
theorem returns_foldlM {ok : β → Prop} (hok : ∀ s b, Returns (fun n => g n s b) ↔ ok b) (bs : List β)
    (s : σ) : Returns (fun n => bs.foldlM (g n) s) ↔ ∀ b ∈ bs, ok b := by
  induction bs generalizing s with
  | nil => simp [Returns]
  | cons b bs ih =>
    rw [returns_foldlM_cons hg, List.forall_mem_cons, ← hok s b]
    constructor
    · rintro ⟨s', hs', h⟩
      exact ⟨⟨s', hs'⟩, (ih s').1 h⟩
    · rintro ⟨⟨s', hs'⟩, h⟩
      exact ⟨s', hs', (ih s').2 h⟩

include hg in
/-- A run returns exactly if each step does in the state the ones before it have come to. -/
theorem returns_foldlM_iff {ok : σ → β → Prop} (hok : ∀ s b, Returns (fun n => g n s b) ↔ ok s b)
    (bs : List β) (s : σ) : Returns (fun n => bs.foldlM (g n) s) ↔
      ∀ pre b post t, bs = pre ++ b :: post → Yields (fun n => pre.foldlM (g n) s) t → ok t b := by
  induction bs generalizing s with
  | nil => simp [Returns]
  | cons b bs ih =>
    rw [returns_foldlM_cons hg]
    constructor
    · rintro ⟨s', hs', h⟩ pre c post t heq ht
      cases pre with
      | nil =>
        obtain ⟨rfl, -⟩ := List.cons.inj heq
        have hst : s = t := by simpa using ht
        rw [← hst]
        exact (hok s b).1 ⟨s', hs'⟩
      | cons b' pre =>
        obtain ⟨rfl, hbs⟩ := List.cons.inj heq
        simp only [List.foldlM_cons] at ht
        obtain ⟨s'', hs'', ht⟩ := (yields_bind (hg s b) fun s' => Grows.foldlM hg pre s').1 ht
        rw [(hg s b).unique hs'' hs'] at ht
        exact (ih s').1 h pre c post t hbs ht
    · intro h
      obtain ⟨s', hs'⟩ := (hok s b).2 (h [] b bs s rfl (by simp))
      refine ⟨s', hs', (ih s').2 fun pre c post t heq ht => ?_⟩
      refine h (b :: pre) c post t (by rw [heq, List.cons_append]) ?_
      simp only [List.foldlM_cons]
      exact (yields_bind (hg s b) fun s' => Grows.foldlM hg pre s').2 ⟨s', hs', ht⟩

end Fold

end Netp.Lib
