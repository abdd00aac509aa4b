import Netp.Lib.Run
import Mathlib.Data.Fintype.Card
import Mathlib.Tactic

/-! # Reader ids when calls overlap (`kring/socket.c`)

Any number of calls of `kring_allocate_reader_on_ring` and `kring_allocate_reader_all_rings` on one
ringset, one load, store or compare-and-swap of the shared `struct kring_ring`s a step. The first
claims a flag with a compare-and-swap. The second looks at every ring and then sets the flags without
looking again; and `num_readers += 1` is a load and a store in both.

Where no call sets a flag that is set already and none stores over a counter that has changed since its
load, ids are exclusive and every call is counted (`ids_exclusive`). Two calls that both looked before
one of them has set its flags get the same id (`id_shared`).
-/

namespace Netp.Kring.Allocate
open Netp.Lib
set_option autoImplicit false

/-- A ringset as the calls find it, and the calls: `ring a` is the ring that call `a` is for, or none
for all of them. -/
structure Config (n : ℕ) where
  nrings : ℕ
  /-- `ringset->params->readers` -/
  readers : ℕ
  allocated : ℕ → ℕ → Bool
  numReaders : ℕ → ℤ
  ring : Fin n → Option ℕ

/-- Where a call is, with its local variables. -/
inductive Pc
  | start (ring : Option ℕ)
  -- kring_allocate_reader_on_ring
  | search (ring id : ℕ)
  | cas (ring id : ℕ)
  | loadNum (ring id : ℕ)
  | storeNum (ring id : ℕ) (num : ℤ)
  -- kring_allocate_reader_all_rings
  | searchAll (id i : ℕ)
  | setAll (id i : ℕ)
  | loadNumAll (id i : ℕ)
  | storeNumAll (id i : ℕ) (num : ℤ)
  -- the id that is returned, none for `-EINVAL`
  | done (ring : Option ℕ) (id : Option ℕ)
  deriving DecidableEq

/-- `allocated i id` is `ring[i].reader[id].allocated`. -/
structure State (n : ℕ) where
  allocated : ℕ → ℕ → Bool
  numReaders : ℕ → ℤ
  pc : Fin n → Pc

section Steps
variable {n : ℕ}

namespace State

def goto (s : State n) (a : Fin n) (pc : Pc) : State n := { s with pc := Function.update s.pc a pc }

def setAllocated (s : State n) (i id : ℕ) : State n :=
  { s with allocated := Function.update s.allocated i (Function.update (s.allocated i) id true) }

def setNum (s : State n) (i : ℕ) (num : ℤ) : State n :=
  { s with numReaders := Function.update s.numReaders i num }

end State

def step (c : Config n) (s : State n) (a : Fin n) : Option (State n) :=
  match s.pc a with
  | .start (some ring) => some (s.goto a (.search ring 0))
  | .start none => some (s.goto a (.searchAll 0 0))
  | .search ring id =>
      if id < c.readers then
        if s.allocated ring id then some (s.goto a (.search ring (id + 1)))
        else some (s.goto a (.cas ring id))
      else some (s.goto a (.done (some ring) none))
  | .cas ring id =>
      if s.allocated ring id then some (s.goto a (.search ring 0))
      else some ((s.setAllocated ring id).goto a (.loadNum ring id))
  | .loadNum ring id => some (s.goto a (.storeNum ring id (s.numReaders ring)))
  | .storeNum ring id num => some ((s.setNum ring (num + 1)).goto a (.done (some ring) (some id)))
  | .searchAll id i =>
      if id < c.readers then
        if i < c.nrings then
          if s.allocated i id then some (s.goto a (.searchAll (id + 1) 0))
          else some (s.goto a (.searchAll id (i + 1)))
        else some (s.goto a (.setAll id 0))
      else some (s.goto a (.done none none))
  | .setAll id i =>
      if i < c.nrings then some ((s.setAllocated i id).goto a (.loadNumAll id i))
      else some (s.goto a (.done none (some id)))
  | .loadNumAll id i => some (s.goto a (.storeNumAll id i (s.numReaders i)))
  | .storeNumAll id i num => some ((s.setNum i (num + 1)).goto a (.setAll id (i + 1)))
  | .done _ _ => none

def allocators (c : Config n) : System (State n) (Fin n) where
  init := ⟨c.allocated, c.numReaders, fun a => .start (c.ring a)⟩
  step := step c

/-- The step of call `a` does not set a flag that is set, nor store over a counter that is not what
the call loaded. -/
def undisturbed (c : Config n) (s : State n) (a : Fin n) : Bool :=
  match s.pc a with
  | .setAll id i => !(decide (i < c.nrings) && s.allocated i id)
  | .storeNum ring _ num => s.numReaders ring == num
  | .storeNumAll _ i num => s.numReaders i == num
  | _ => true

/-- Call `a` covers ring `i`. -/
def Config.Covers (c : Config n) (a : Fin n) (i : ℕ) : Prop :=
  i < c.nrings ∧ (c.ring a = none ∨ c.ring a = some i)

instance decidableCovers (c : Config n) (a : Fin n) (i : ℕ) : Decidable (c.Covers a i) :=
  inferInstanceAs (Decidable (_ ∧ _))

/-- What call `a` has returned. -/
def State.returned (s : State n) (a : Fin n) : Option (Option ℕ) :=
  match s.pc a with
  | .done _ id => some id
  | _ => none

/-- The call is over and it was given an id. -/
def State.successful (s : State n) (a : Fin n) : Bool := (s.returned a).join.isSome

/-- What the callers rely on. -/
structure Exclusive (c : Config n) (s : State n) : Prop where
  ids : ∀ a b id i, s.returned a = some (some id) → s.returned b = some (some id) → c.Covers a i →
    c.Covers b i → a = b
  counts : (∀ a, (s.returned a).isSome = true) → ∀ i, i < c.nrings → s.numReaders i =
    c.numReaders i + (Finset.univ.filter fun a => s.successful a = true ∧ c.Covers a i).card

end Steps

/-! ## Who has set which flag -/

namespace Pc

/-- The ring that the call is for. -/
def ring : Pc → Option ℕ
  | .start ring => ring
  | .search ring _ | .cas ring _ | .loadNum ring _ | .storeNum ring _ _ => some ring
  | .searchAll _ _ | .setAll _ _ | .loadNumAll _ _ | .storeNumAll _ _ _ => none
  | .done ring _ => ring

/-- The call has taken `id` on ring `i` of the set. -/
def hasFlag (i id : ℕ) : Pc → Bool
  | .loadNum ring k | .storeNum ring k _ => decide (ring = i ∧ k = id)
  | .setAll k j => decide (i < j ∧ k = id)
  | .loadNumAll k j | .storeNumAll k j _ => decide (i ≤ j ∧ k = id)
  | .done (some ring) (some k) => decide (ring = i ∧ k = id)
  | .done none (some k) => decide (k = id)
  | _ => false

/-- The call has stored in the counter of ring `i` of the set. -/
def hasCounted (i : ℕ) : Pc → Bool
  | .setAll _ j | .loadNumAll _ j | .storeNumAll _ j _ => decide (i < j)
  | .done (some ring) (some _) => decide (ring = i)
  | .done none (some _) => true
  | _ => false

end Pc

section Inv
variable {n : ℕ} {c : Config n} {s : State n} {a : Fin n} {pc : Pc} {r id : ℕ}

/-- How many calls have stored in the counter of ring `i`. -/
def stored (s : State n) (i : ℕ) : ℕ :=
  (Finset.univ.filter fun b => (s.pc b).hasCounted i = true).card

structure Books (c : Config n) (s : State n) : Prop where
  ring : ∀ b, (s.pc b).ring = c.ring b
  flag : ∀ i < c.nrings, ∀ b k, (s.pc b).hasFlag i k = true → s.allocated i k = true
  unique : ∀ i < c.nrings, ∀ b b' k, (s.pc b).hasFlag i k = true → (s.pc b').hasFlag i k = true → b = b'
  counted : ∀ i < c.nrings, s.numReaders i = c.numReaders i + stored s i

theorem goto_pc (b : Fin n) : (s.goto a pc).pc b = if b = a then pc else s.pc b := by
  simp [State.goto, Function.update_apply]

/-- What the old and the new place of call `a` agree on, all calls agree on. -/
theorem goto_congr {γ : Type} (f : Pc → γ) (h : f pc = f (s.pc a)) (b : Fin n) :
    f ((s.goto a pc).pc b) = f (s.pc b) := by
  rw [goto_pc]
  split_ifs with hb
  · rw [hb, h]
  · rfl

theorem stored_goto {i : ℕ} (hcount : pc.hasCounted i = (s.pc a).hasCounted i) :
    stored (s.goto a pc) i = stored s i := by
  unfold stored
  congr 1
  apply Finset.filter_congr
  intro b _
  rw [goto_congr (Pc.hasCounted i) hcount]

theorem stored_succ {i : ℕ} (hcount : pc.hasCounted i = true) (hnot : (s.pc a).hasCounted i = false) :
    stored (s.goto a pc) i = stored s i + 1 := by
  unfold stored
  rw [← Finset.card_insert_of_notMem (a := a)]
  · congr 1
    ext b
    simp only [Finset.mem_filter, Finset.mem_univ, true_and, Finset.mem_insert]
    rw [goto_pc]
    split_ifs with hb
    · simp [hb, hcount]
    · simp [hb]
  · simp [hnot]

theorem setAllocated_apply (i k : ℕ) :
    (s.setAllocated r id).allocated i k = if i = r ∧ k = id then true else s.allocated i k := by
  simp only [State.setAllocated, Function.update_apply]
  by_cases hi : i = r
  · subst hi
    by_cases hk : k = id <;> simp [hk]
  · simp [hi]

theorem Books.goto (h : Books c s) (hring : pc.ring = (s.pc a).ring)
    (hflag : ∀ i < c.nrings, ∀ k, pc.hasFlag i k = (s.pc a).hasFlag i k)
    (hcount : ∀ i < c.nrings, pc.hasCounted i = (s.pc a).hasCounted i) : Books c (s.goto a pc) := by
  have hflag' := fun i hi k => goto_congr (Pc.hasFlag i k) (hflag i hi k)
  refine ⟨fun b => (goto_congr Pc.ring hring b).trans (h.ring b), ?_, ?_, ?_⟩
  · intro i hi b k hb
    exact h.flag i hi b k ((hflag' i hi k b).symm.trans hb)
  · intro i hi b b' k hb hb'
    exact h.unique i hi b b' k ((hflag' i hi k b).symm.trans hb) ((hflag' i hi k b').symm.trans hb')
  · intro i hi
    rw [stored_goto (hcount i hi)]
    exact h.counted i hi

theorem Books.take (h : Books c s) (hfree : s.allocated r id = false)
    (hring : pc.ring = (s.pc a).ring)
    (hflag : ∀ i k, pc.hasFlag i k = true → (s.pc a).hasFlag i k = true ∨ i = r ∧ k = id)
    (hcount : ∀ i, pc.hasCounted i = (s.pc a).hasCounted i) :
    Books c ((s.setAllocated r id).goto a pc) := by
  have hold : ∀ b i k, (((s.setAllocated r id).goto a pc).pc b).hasFlag i k = true →
      (s.pc b).hasFlag i k = true ∨ b = a ∧ i = r ∧ k = id := by
    intro b i k hb
    rw [goto_pc] at hb
    split_ifs at hb with hba
    · subst hba
      rcases hflag i k hb with hb | hb
      · exact .inl hb
      · exact .inr ⟨rfl, hb⟩
    · exact .inl hb
  have hnone : ∀ i < c.nrings, ∀ b k, (s.pc b).hasFlag i k = true → ¬(i = r ∧ k = id) := by
    rintro i hi b k hb ⟨rfl, rfl⟩
    rw [h.flag i hi b k hb] at hfree
    cases hfree
  refine ⟨fun b => (goto_congr (s := s.setAllocated r id) Pc.ring hring b).trans (h.ring b), ?_, ?_, ?_⟩
  · intro i hi b k hb
    change (s.setAllocated r id).allocated i k = true
    rw [setAllocated_apply]
    split_ifs with hik
    · rfl
    · rcases hold b i k hb with hb | ⟨-, hik'⟩
      · exact h.flag i hi b k hb
      · exact absurd hik' hik
  · intro i hi b b' k hb hb'
    rcases hold b i k hb with hhas | ⟨hba, hik⟩
    · rcases hold b' i k hb' with hhas' | ⟨-, hik⟩
      · exact h.unique i hi b b' k hhas hhas'
      · exact absurd hik (hnone i hi b k hhas)
    · rcases hold b' i k hb' with hhas' | ⟨hba', -⟩
      · exact absurd hik (hnone i hi b' k hhas')
      · rw [hba, hba']
  · intro i hi
    rw [stored_goto (s := s.setAllocated r id) (hcount i)]
    exact h.counted i hi

/-- A counter that has not changed since its load goes up by one. -/
theorem Books.count (h : Books c s) (hring : pc.ring = (s.pc a).ring)
    (hflag : ∀ i k, pc.hasFlag i k = (s.pc a).hasFlag i k)
    (hcount : pc.hasCounted r = true) (hnot : (s.pc a).hasCounted r = false)
    (hother : ∀ i, i ≠ r → pc.hasCounted i = (s.pc a).hasCounted i) :
    Books c ((s.setNum r (s.numReaders r + 1)).goto a pc) := by
  have hflag' := fun i k => goto_congr (s := s.setNum r (s.numReaders r + 1)) (Pc.hasFlag i k) (hflag i k)
  refine ⟨fun b => (goto_congr (s := s.setNum r _) Pc.ring hring b).trans (h.ring b), ?_, ?_, ?_⟩
  · intro i hi b k hb
    exact h.flag i hi b k ((hflag' i k b).symm.trans hb)
  · intro i hi b b' k hb hb'
    exact h.unique i hi b b' k ((hflag' i k b).symm.trans hb) ((hflag' i k b').symm.trans hb')
  · intro i hi
    have hcounted := h.counted i hi
    by_cases hir : i = r
    · subst hir
      rw [stored_succ (s := s.setNum i _) hcount hnot]
      simp only [State.goto, State.setNum, Function.update_self, hcounted]
      push_cast
      exact Int.add_assoc _ _ _
    · rw [stored_goto (s := s.setNum r _) (hother i hir)]
      exact (Function.update_of_ne hir _ _).trans hcounted

/-! ## Runs -/

theorem books_init (c : Config n) : Books c (allocators c).init where
  ring _ := rfl
  flag _ _ _ _ h := by cases h
  unique _ _ _ _ _ h := by cases h
  counted i _ := by simp [allocators, stored, Pc.hasCounted]

theorem books_step (h : Books c s) (hok : undisturbed c s a = true) {s' : State n}
    (hs : step c s a = some s') : Books c s' := by
  unfold step at hs
  unfold undisturbed at hok
  cases hpc : s.pc a with
  | start ring =>
    rw [hpc] at hs
    cases ring <;> obtain rfl := Option.some.inj hs <;>
      exact h.goto (by rw [hpc]; rfl) (by simp [hpc, Pc.hasFlag]) (by simp [hpc, Pc.hasCounted])
  | search ring id =>
    simp only [hpc] at hs
    split_ifs at hs <;> obtain rfl := Option.some.inj hs <;>
      exact h.goto (by rw [hpc]; rfl) (by simp [hpc, Pc.hasFlag]) (by simp [hpc, Pc.hasCounted])
  | cas ring id =>
    simp only [hpc] at hs
    split_ifs at hs with halloc
    · obtain rfl := Option.some.inj hs
      exact h.goto (by rw [hpc]; rfl) (by simp [hpc, Pc.hasFlag]) (by simp [hpc, Pc.hasCounted])
    · obtain rfl := Option.some.inj hs
      refine h.take (by simpa using halloc) (by rw [hpc]; rfl) ?_ (by simp [hpc, Pc.hasCounted])
      intro i k hk
      simp only [Pc.hasFlag, decide_eq_true_eq] at hk
      exact .inr ⟨hk.1.symm, hk.2.symm⟩
  | loadNum ring id =>
    simp only [hpc] at hs
    obtain rfl := Option.some.inj hs
    exact h.goto (by rw [hpc]; rfl) (by simp [hpc, Pc.hasFlag]) (by simp [hpc, Pc.hasCounted])
  | storeNum ring id num =>
    simp only [hpc] at hs hok
    obtain rfl := Option.some.inj hs
    obtain rfl : s.numReaders ring = num := by simpa using hok
    refine h.count (by rw [hpc]; rfl) (by simp [hpc, Pc.hasFlag]) (by simp [Pc.hasCounted])
      (by rw [hpc]; rfl) ?_
    intro i hi
    simp [hpc, Pc.hasCounted, Ne.symm hi]
  | searchAll id i =>
    simp only [hpc] at hs
    split_ifs at hs <;> obtain rfl := Option.some.inj hs <;>
      exact h.goto (by rw [hpc]; rfl) (by simp [hpc, Pc.hasFlag]) (by simp [hpc, Pc.hasCounted])
  | setAll id i =>
    simp only [hpc] at hs hok
    split_ifs at hs with hi
    · obtain rfl := Option.some.inj hs
      refine h.take (by simpa [hi] using hok) (by rw [hpc]; rfl) ?_ (by simp [hpc, Pc.hasCounted])
      intro j k hk
      simp only [hpc, Pc.hasFlag, decide_eq_true_eq] at hk ⊢
      omega
    · -- every ring of the set has been passed
      obtain rfl := Option.some.inj hs
      refine h.goto (by rw [hpc]; rfl) ?_ ?_
      · intro j hj k
        simp only [hpc, Pc.hasFlag, decide_eq_decide]
        omega
      · intro j hj
        simp only [hpc, Pc.hasCounted]
        exact (decide_eq_true (by omega)).symm
  | loadNumAll id i =>
    simp only [hpc] at hs
    obtain rfl := Option.some.inj hs
    exact h.goto (by rw [hpc]; rfl) (by simp [hpc, Pc.hasFlag]) (by simp [hpc, Pc.hasCounted])
  | storeNumAll id i num =>
    simp only [hpc] at hs hok
    obtain rfl := Option.some.inj hs
    obtain rfl : s.numReaders i = num := by simpa using hok
    refine h.count (by rw [hpc]; rfl) ?_ (by simp [Pc.hasCounted]) (by simp [hpc, Pc.hasCounted]) ?_
    · intro j k
      simp only [hpc, Pc.hasFlag, decide_eq_decide]
      omega
    · intro j hj
      simp only [hpc, Pc.hasCounted, decide_eq_decide]
      omega
  | done ring id =>
    rw [hpc] at hs
    cases hs

theorem Books.exclusive (h : Books c s) : Exclusive c s := by
  have hreturned : ∀ b k, s.returned b = some k → s.pc b = .done (c.ring b) k := by
    intro b k hb
    have hring := h.ring b
    unfold State.returned at hb
    cases hpc : s.pc b <;> rw [hpc] at hb hring <;> simp only [Option.some.injEq, reduceCtorEq] at hb
    rw [hb, ← hring]
    rfl
  have hflag : ∀ b i k, s.returned b = some (some k) → c.Covers b i → (s.pc b).hasFlag i k = true := by
    rintro b i k hb ⟨-, hi⟩
    rw [hreturned b _ hb]
    rcases hi with hi | hi <;> rw [hi] <;> simp [Pc.hasFlag]
  refine ⟨?_, ?_⟩
  · intro b b' k i hb hb' hi hi'
    exact h.unique i hi.1 b b' k (hflag b i k hb hi) (hflag b' i k hb' hi')
  · intro hdone i hi
    rw [h.counted i hi, stored]
    congr 2
    apply congrArg
    apply Finset.filter_congr
    intro b _
    obtain ⟨k, hk⟩ := Option.isSome_iff_exists.1 (hdone b)
    rw [hreturned b k hk, State.successful, hk]
    cases k with
    | none => cases c.ring b <;> simp [Pc.hasCounted]
    | some k => cases hr : c.ring b <;> simp [Pc.hasCounted, Config.Covers, hi, hr]

/-- **Ids are exclusive** along every run without a disturbed step. -/
theorem ids_exclusive (c : Config n) (s : State n)
    (h : ReachIf (allocators c) (fun s a => undisturbed c s a = true) s) : Exclusive c s :=
  (ReachIf.invariant (books_init c) (fun _ _ _ hi hok hs => books_step hi hok hs) h).exclusive

end Inv

/-- Two calls for all the rings of a new ringset. -/
def bothAll (nrings : ℕ) : Config 2 := ⟨nrings, 6, fun _ _ => false, fun _ => 0, fun _ => none⟩

theorem ids_exclusive_pair : ∃ s, runIf (allocators (bothAll 1)) (undisturbed (bothAll 1))
    (allocators (bothAll 1)).init (List.replicate 7 0 ++ List.replicate 8 1) = some s ∧
      (s.returned 0, s.returned 1, s.numReaders 0) = (some (some 0), some (some 1), 2) ∧
      Exclusive (bothAll 1) s := by
  have h : ((runIf (allocators (bothAll 1)) (undisturbed (bothAll 1)) (allocators (bothAll 1)).init
      (List.replicate 7 0 ++ List.replicate 8 1)).map fun s =>
        (s.returned 0, s.returned 1, s.numReaders 0)) = some (some (some 0), some (some 1), 2) := by
    rfl
  obtain ⟨s, hs, hf⟩ := Option.map_eq_some_iff.1 h
  exact ⟨s, hs, hf, ids_exclusive _ s (ReachIf.runIf (fun _ _ h => h) .init hs)⟩

/-- Both have looked at the ring when the first of them sets its flag. -/
theorem id_shared : ∃ (c : Config 2) (s : State 2), Reach (allocators c) s ∧ ¬ Exclusive c s := by
  have h : ((run (allocators (bothAll 1)) (allocators (bothAll 1)).init
      (List.replicate 3 0 ++ List.replicate 7 1 ++ List.replicate 4 0)).map fun s =>
        (s.returned 0, s.returned 1)) = some (some (some 0), some (some 0)) := rfl
  obtain ⟨s, hs, hf⟩ := Option.map_eq_some_iff.1 h
  refine ⟨bothAll 1, s, Reach.run .init hs, fun hex => ?_⟩
  obtain ⟨h0, h1⟩ := Prod.mk.inj hf
  have hsame := hex.ids 0 1 0 0 h0 h1 ⟨Nat.one_pos, .inl rfl⟩ ⟨Nat.one_pos, .inl rfl⟩
  exact absurd hsame (by decide)

end Netp.Kring.Allocate
