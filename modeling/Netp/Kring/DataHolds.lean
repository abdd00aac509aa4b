import Netp.Kring.DataSolo
import Mathlib.Data.Set.Card

/-! # The descriptor invariant of the data ring

`DescriptorsOk` collects what holds of the descriptors in a state of a run, for any number of
writers, and what follows for a lone writer. Only one part needs a condition: a reader that has
entered has its bit on the page it returned last as long as it does not come round to that very
page in `kdata_advance_rhead` (`descriptors_ok`). The loop has no bound, and a writer that keeps
one page ahead of it drives it all the way round (`reader_loses_page`): the reader takes its own
page once more and then gives it back.
-/

namespace Netp.Kring.Data
open Netp.Lib
set_option autoImplicit false

section Holds
variable {W : ℕ} {β : Type} {s : State W β}

structure DescriptorsOk (s : State W β) : Prop where
  /-- A writer's mark and a reader's bit are never on one page. -/
  apart : ∀ p r, ¬ (writerOwned (s.desc p) = true ∧ readerBit r (s.desc p) = true)
  /-- A skip mark is only on a page some reader has. -/
  marked : ∀ p, skipped (s.desc p) = true → ∃ r, readerBit r (s.desc p) = true
  /-- A reader has at most two pages. -/
  two : ∀ r, {p | readerBit r (s.desc p) = true}.encard ≤ 2
  /-- Outside `kdata_next_generic` it has exactly the one it returned. -/
  exact : ∀ r, outside (s.reader r) = true → s.entered r = true →
    ∀ p, readerBit r (s.desc p) = true ↔ p = s.rhead r
  /-- A lone writer finds a page no reader has. -/
  find : W = 1 → ∀ w, (s.writer w).pc = .findLoadWhead →
    ∃ vs t q, FindRun w s vs t ∧ (t.writer w).pc = .firstStoreWresv q ∧
      vs.length ≤ 2 * kdataReaders + 1 ∧ ∀ r, readerBit r (t.desc q) = false

theorem bits_encard (hi : DescInv s) (r : ReaderId) :
    {p | readerBit r (s.desc p) = true}.encard ≤ 2 := by
  have hsub : {p | readerBit r (s.desc p) = true} ⊆ ((bitPages s r).toFinset : Set ℕ) := by
    intro p hp
    exact Finset.mem_coe.2 (List.mem_toFinset.2 (hi.bits r p hp))
  refine (Set.encard_le_encard hsub).trans ?_
  rw [Set.encard_coe_eq_coe_finsetCard]
  exact_mod_cast (List.toFinset_card_le _).trans (bitPages_length s r)

/-- **The descriptor invariant** along every run in which no reader comes round to its own page. -/
theorem descriptors_ok [Inhabited β] (s : State W β)
    (h : ReachIf (ring W β) (fun s a => noWrap s a) s) : DescriptorsOk s := by
  have hi := descInv_run h
  refine ⟨?_, hi.marked, bits_encard hi, ?_, ?_⟩
  · rintro p r ⟨hw, hr⟩
    rw [hi.apart p r hw] at hr
    cases hr
  · intro r hout hent p
    have hpages := outside_bitPages hout hent
    constructor
    · intro hp
      have := hi.bits r p hp
      simpa [hpages] using this
    · rintro rfl
      exact (held_run (fun _ _ h => h) h r).1 _ (by simp [hpages])
  · rintro rfl w hpc
    obtain rfl : w = 0 := Subsingleton.elim _ _
    exact find_alone h.reach hpc

end Holds

theorem descriptors_ok_turns : ∃ s, runIf (ring 2 ℕ) noWrap (ring 2 ℕ).init turnsSchedule = some s ∧
    s.hist.written = [7, 8] ∧ DescriptorsOk s := by
  have h : ((runIf (ring 2 ℕ) noWrap (ring 2 ℕ).init turnsSchedule).map fun s =>
      s.hist.written) = some [7, 8] := rfl
  obtain ⟨s, hs, hw⟩ := Option.map_eq_some_iff.1 h
  exact ⟨s, hs, hw, descriptors_ok s (ReachIf.runIf (fun _ _ h => h) .init hs)⟩

/-! ## A reader driven round the ring -/

/-- Reader 0, which has page 0, is about to look at page `k`, which the writer has just taken. -/
structure Lockstep (k : ℕ) (s : State 1 ℕ) : Prop where
  reader : s.reader 0 = .advRead 0 k
  writer : (s.writer 0).pc = .firstStoreWresv k
  mine : s.desc 0 = kdataDscReaderBit 0
  theirs : writerOwned (s.desc k) = true
  ahead : ∀ p, k < p → s.desc p = 0
  rhead : s.rhead 0 = 0
  entered : s.entered 0 = true

/-- Readers 0 and 1 take the first message. Reader 0 then loads the descriptor of page 1, reader 1
takes that page, and the writer takes page 2 before reader 0 fails and goes on to it. -/
def wrapSchedule : List (Act 1 ℕ) :=
  enters 0 ++ enters 1 ++ .start 0 0 :: writes 0 11 ++ reads 0 9 ++ reads 1 9 ++
    .start 0 0 :: writes 0 11 ++ reads 0 4 ++ reads 1 12 ++ .start 0 0 :: writes 0 3 ++ reads 0 1

theorem lockstep_start : ∃ s, Reach (ring 1 ℕ) s ∧ Lockstep 2 s := by
  have hsome : ((run (ring 1 ℕ) (ring 1 ℕ).init wrapSchedule).isSome) = true := rfl
  obtain ⟨s, hs⟩ := Option.isSome_iff_exists.1 hsome
  refine ⟨s, Reach.run .init hs, ?_⟩
  refine
    { reader := run_field hs (fun s => s.reader 0) rfl
      writer := run_field hs (fun s => (s.writer 0).pc) rfl
      mine := run_field hs (fun s => s.desc 0) rfl
      theirs := run_field hs (fun s => writerOwned (s.desc 2)) rfl
      ahead := ?_
      rhead := run_field hs (fun s => s.rhead 0) rfl
      entered := run_field hs (fun s => s.entered 0) rfl }
  intro p hp
  obtain ⟨q, rfl⟩ := Nat.exists_eq_add_of_lt hp
  rw [show 2 + q + 1 = q + 3 by omega]
  exact run_field hs (fun s => s.desc (q + 3)) rfl

theorem Lockstep.next {k : ℕ} {s : State 1 ℕ} (h : Lockstep k s) (hr : Reach (ring 1 ℕ) s)
    (hk0 : 0 < k) (hk : k + 1 < kdataNpages) :
    ∃ s', Reach (ring 1 ℕ) s' ∧ Lockstep (k + 1) s' := by
  have hnext : kdataNext k = k + 1 := by
    unfold kdataNext
    rw [if_neg (by omega)]
  have hread := step_advRead_owned h.reader h.theirs
  set t := s.setReader 0 (.advRead 0 (kdataNext k)) with ht
  have hpub : run (ring 1 ℕ) t (writes 0 8) = some (published t 0 k) := run_publish h.writer
  have hclaim : run (ring 1 ℕ) (published t 0 k) (.start 0 0 :: writes 0 3) =
      some (claimed (published t 0 k) 0 0 (k + 1)) := by
    refine run_claim (by simp [published]) hnext ?_
    simp [published, ht, State.setReader, h.ahead (k + 1) (by omega)]
  have hrt : Reach (ring 1 ℕ) t := .next (a := .reader 0) hr trivial hread
  refine ⟨_, (hrt.run hpub).run hclaim, ?_⟩
  refine
    { reader := ?_, writer := ?_, mine := ?_, theirs := ?_, ahead := ?_, rhead := h.rhead,
      entered := h.entered }
  · simp [claimed, published, State.setDesc, State.kill, ht, State.setReader, hnext]
  · simp [claimed]
  · have hne : (0 : ℕ) ≠ k := by omega
    simp [claimed, published, State.setDesc, State.kill, ht, State.setReader,
      Function.update_of_ne hne, h.mine]
  · simp [claimed, State.setDesc, State.kill]
    decide
  · intro p hp
    have hne : p ≠ k + 1 := by omega
    have hne' : p ≠ k := by omega
    simp [claimed, published, State.setDesc, State.kill, ht, State.setReader,
      Function.update_of_ne hne, Function.update_of_ne hne', h.ahead p (by omega)]

theorem lockstep_all (k : ℕ) (hk : k + 2 < kdataNpages) :
    ∃ s, Reach (ring 1 ℕ) s ∧ Lockstep (k + 2) s := by
  induction k with
  | zero => exact lockstep_start
  | succ k ih =>
    obtain ⟨s, hr, hs⟩ := ih (by omega)
    exact hs.next hr (by omega) (by omega)

theorem reader_loses_page : ∃ s : State 1 ℕ, Reach (ring 1 ℕ) s ∧ ¬ DescriptorsOk s := by
  obtain ⟨s, hr, h⟩ := lockstep_all 2045 (by decide)
  have hwrap : kdataNext 2047 = 0 := by decide
  -- the last page is the writer's; the next one is page 0, which the reader takes and gives back
  have hrun : ∃ t, run (ring 1 ℕ) s (reads 0 10) = some t ∧ t.reader 0 = .idle ∧
      t.entered 0 = true ∧ t.rhead 0 = 0 ∧ t.desc 0 = 0 := by
    simp only [reads, List.replicate]
    have hmine : writerOwned (s.desc 0) = false := by
      rw [h.mine]
      decide
    rw [run_reader (step_advRead_owned h.reader h.theirs), hwrap,
      run_reader (step_advRead_free (setReader_pc _ _ _) (by exact hmine)),
      run_reader (step_advCas (setReader_pc _ _ _) rfl),
      run_reader (step_nextStoreRhead (setReader_pc _ _ _)),
      run_reader (step_nextLoadEntered (setReader_pc _ _ _) (by exact h.entered)),
      run_reader (step_relRead (setReader_pc _ _ _)),
      run_reader (step_relCas (setReader_pc _ _ _) rfl),
      run_reader (step_relConsumed (setReader_pc _ _ _)),
      run_reader (step_nextStoreEntered (setReader_pc _ _ _)),
      run_reader (step_nextReturn (setReader_pc _ _ _)), run_nil]
    refine ⟨_, rfl, setReader_pc _ _ _, ?_, ?_, ?_⟩
    · simp [State.setReader]
    · simp [State.setReader, State.setDesc]
    · simp only [State.setReader, State.setDesc, Function.update_self, h.mine]
      decide
  obtain ⟨t, ht, hpc, hent, hrhead, hdesc⟩ := hrun
  refine ⟨t, hr.run ht, fun hok => ?_⟩
  have hbit := (hok.exact 0 (by rw [hpc]; rfl) hent 0).2 hrhead.symm
  rw [hdesc] at hbit
  exact absurd hbit (by decide)

end Netp.Kring.Data
