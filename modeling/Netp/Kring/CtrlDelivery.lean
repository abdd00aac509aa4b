import Netp.Kring.CtrlStep

/-! # Delivery by the control ring

`Delivers s` collects what a reader and the writers may rely on in a state of a run. It holds along
every run in which no compare-and-swap of `kctrl_allocate` meets a recycled first page
(`ctrl_delivers`). Without that condition it fails: a writer that stalls between its load of
`descriptor[free].next` and its compare-and-swap can put a page another writer owns back on the
free list (`ctrl_page_owned_twice`).
-/

namespace Netp.Kring.Ctrl
open Netp.Lib
set_option autoImplicit false

/-- The messages writer `w` has pushed, in the order of the pushes. -/
def pushedBy (s : State) (w : WriterId) : List (List UInt8) :=
  (s.pushed.filter fun m => m.1 = w).map Prod.snd

structure Delivers (s : State) : Prop where
  /-- What was returned is the messages pushed first, each one once and with its bytes. -/
  once : s.returned <+: s.pushed.map Prod.snd
  /-- A writer's messages are pushed in the order of its calls; the last call may be under way. -/
  order : ∀ w, pushedBy s w ++ inCall s w = s.calls w
  /-- The page handed out keeps its bytes until `kctrl_next_generic` moves `head` again. -/
  held : popped s.reader = false → ∀ m, s.returned.getLast? = some m →
    (s.page (kctrlIndex s.head)).plain = m
  /-- No two writers own one page. -/
  apart : ∀ w u p, owned s w = some p → owned s u = some p → w = u
  /-- No writer owns the page the reader is at. -/
  head : ∀ w, owned s w ≠ some s.head

theorem Rep.owned_has {s : State} {v : View} (h : Rep s v) {w : WriterId} {p : ℕ}
    (ho : owned s w = some p) : Has v w p := by
  have hw := h.writers w
  cases hpc : (s.writer w).pc <;> simp only [owned, hpc, WriterRep] at ho hw <;> cases ho
  case allocStoreWloc => exact hw
  all_goals exact hw.1

theorem Rep.delivers {s : State} {v : View} (h : Rep s v) : Delivers s where
  once := ⟨_, h.history.symm⟩
  order := h.calls
  held := by
    rw [kctrlIndex_of_lt (h.chain_role _ h.head_mem).1]
    exact h.held
  apart := by
    intro w u p hw hu
    have h1 := (h.owned_has hw).2
    rw [(h.owned_has hu).2] at h1
    exact (Role.writer.inj h1).symm
  head := by
    intro w hw
    have h1 := (h.owned_has hw).2
    rw [(h.chain_role _ h.head_mem).2] at h1
    cases h1

/-- **Exactly-once delivery** in every state of every run whose steps meet `noAba`. -/
theorem ctrl_delivers (s : State) (h : ReachIf ring (fun s a => noAba s a) s) : Delivers s := by
  obtain ⟨v, hv⟩ := rep_run h
  exact hv.delivers

/-- `n` accesses of writer `w`. -/
def writes (w : WriterId) (n : ℕ) : List Act := List.replicate n (.writer w)

/-- Writers 0 and 1 take turns, access by access, so that writer 1 finds the free list and the stack changed
under it and tries again. The reader then takes both messages. -/
def turnsSchedule : List Act :=
  .call 0 [7] :: .call 1 [8] :: (List.replicate 12 [.writer 0, .writer 1]).flatten ++ writes 1 8 ++
    List.replicate 32 .reader

theorem ctrl_delivers_turns : ∃ s, runIf ring noAba ring.init turnsSchedule = some s ∧
    s.returned = [[7], [8]] ∧ Delivers s := by
  have h : ((runIf ring noAba ring.init turnsSchedule).map State.returned) = some [[7], [8]] := by
    rfl
  obtain ⟨s, hs, hr⟩ := Option.map_eq_some_iff.1 h
  exact ⟨s, hs, hr, ctrl_delivers s (ReachIf.runIf (fun _ _ h => h) .init hs)⟩

/-- Writer 0 stalls before its compare-and-swap with page 1 first and page 2 next. Meanwhile page 1
is written, read and freed again, and writer 2 takes page 2. Writer 0 then makes page 2 the first
free page, and writer 3 takes it too. -/
def abaSchedule : List Act :=
  .call 0 [10] :: writes 0 2 ++ .call 1 [11] :: writes 1 12 ++ .call 2 [12] :: writes 2 3 ++
    .call 1 [13] :: writes 1 12 ++ List.replicate 32 .reader ++ writes 0 1 ++
    .call 3 [14] :: writes 3 3

theorem ctrl_page_owned_twice : ∃ s, Reach ring s ∧ ¬ Delivers s := by
  have h : ((run ring ring.init abaSchedule).map fun s => (owned s 2, owned s 3)) =
      some (some 2, some 2) := by decide +kernel
  obtain ⟨s, hs, ho⟩ := Option.map_eq_some_iff.1 h
  refine ⟨s, Reach.run .init hs, fun hd => ?_⟩
  have := hd.apart 2 3 2 (congrArg Prod.fst ho) (congrArg Prod.snd ho)
  exact absurd this (by decide)

end Netp.Kring.Ctrl
