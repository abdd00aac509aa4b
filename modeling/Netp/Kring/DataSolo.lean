import Netp.Kring.DataOwn

/-! # A party that moves alone

One equation for each access of a writer's round, and from them what the stretches of a round do
when nobody interferes: the claim of a page nobody has (`run_claim`) and its publication
(`run_publish`). Then `kdata_find_write_loc` by itself: with one writer it ends after at most
`2 * kdataReaders + 1` pages, at one that no reader has (`find_alone`).
-/

namespace Netp.Kring.Data
open Netp.Lib
set_option autoImplicit false

section Equations
variable {W : ℕ} {β : Type} {s : State W β} {w : Fin W}

@[simp] theorem setWriter_pc (s : State W β) (w : Fin W) (pc : WriterPc) :
    ((s.setWriter w pc).writer w).pc = pc := by simp [State.setWriter]

@[simp] theorem setWriter_data (s : State W β) (w : Fin W) (pc : WriterPc) :
    ((s.setWriter w pc).writer w).data = (s.writer w).data := by simp [State.setWriter]

theorem step_findLoadWhead (h : (s.writer w).pc = .findLoadWhead) :
    writerStep s w = some (s.setWriter w (.findRead (kdataNext s.whead))) := by
  simp only [writerStep, h]

theorem step_findRead {p : ℕ} (h : (s.writer w).pc = .findRead p) :
    writerStep s w = some (s.setWriter w (findTest p (s.desc p))) := by
  simp only [writerStep, h]

theorem step_findClaimCas {p : ℕ} {d : Desc} (h : (s.writer w).pc = .findClaimCas p d)
    (hd : s.desc p = d) :
    writerStep s w = some (((s.setDesc p (d ||| kdataDscWriterOwned)).kill p).setWriter w
      (.firstStoreWresv p)) := by
  simp only [writerStep, h, hd, if_true]

theorem step_findSkipCas {p : ℕ} {d : Desc} (h : (s.writer w).pc = .findSkipCas p d)
    (hd : s.desc p = d) :
    writerStep s w = some (((s.setDesc p (d ||| kdataDscSkipped)).kill p).setWriter w
      (.findRead (kdataNext p))) := by
  simp only [writerStep, h, hd, if_true]

theorem step_firstStoreWresv {p : ℕ} (h : (s.writer w).pc = .firstStoreWresv p) :
    writerStep s w = some ({ s with wresv := p }.setWriter w (.fill p)) := by
  simp only [writerStep, h]

theorem step_fill {p : ℕ} (h : (s.writer w).pc = .fill p) :
    writerStep s w = some ({ s with
      page := Function.update s.page p (some ⟨s.hist.filled, (s.writer w).data⟩)
      hist := { s.hist with filled := s.hist.filled + 1 } }.setWriter w (.secondLoadWresv p)) := by
  simp only [writerStep, h]

theorem step_secondLoadWresv {p : ℕ} (h : (s.writer w).pc = .secondLoadWresv p) :
    writerStep s w = some (s.setWriter w (.releaseRead p s.wresv)) := by
  simp only [writerStep, h]

theorem step_releaseRead {p q : ℕ} (h : (s.writer w).pc = .releaseRead p q) :
    writerStep s w = some (s.setWriter w (.releaseCas p q (s.desc q))) := by
  simp only [writerStep, h]

theorem step_releaseCas {p q : ℕ} {d : Desc} (h : (s.writer w).pc = .releaseCas p q d)
    (hd : s.desc q = d) :
    writerStep s w = some ((s.setDesc q (d &&& ~~~kdataDscWriterOwned)).setWriter w
      .secondLoadWresvAgain) := by
  simp only [writerStep, h, hd, if_true]

theorem step_secondLoadWresvAgain (h : (s.writer w).pc = .secondLoadWresvAgain) :
    writerStep s w = some (s.setWriter w (.secondStoreWhead s.wresv)) := by
  simp only [writerStep, h]

theorem step_secondStoreWhead {p : ℕ} (h : (s.writer w).pc = .secondStoreWhead p) :
    writerStep s w = some ({ s with
      whead := p
      hist := { s.hist with
        written := s.hist.written ++ [(s.writer w).data]
        live := Function.update s.hist.live p true } }.setWriter w .addProduced) := by
  simp only [writerStep, h]

theorem step_addProduced (h : (s.writer w).pc = .addProduced) :
    writerStep s w = some ({ s with produced := s.produced + 1 }.setWriter w .idle) := by
  simp only [writerStep, h]

variable {r : ReaderId}

@[simp] theorem setReader_pc (s : State W β) (r : ReaderId) (pc : ReaderPc) :
    (s.setReader r pc).reader r = pc := by simp [State.setReader]

theorem step_advRead_owned {prev q : ℕ} (h : s.reader r = .advRead prev q)
    (hd : writerOwned (s.desc q) = true) :
    readerStep s r = some (s.setReader r (.advRead prev (kdataNext q))) := by
  have hne : ¬ s.desc q &&& kdataDscWriterOwned = 0 := by
    rw [and_writerOwned, hd]
    decide
  simp only [readerStep, h, if_neg hne]

theorem step_advRead_free {prev q : ℕ} (h : s.reader r = .advRead prev q)
    (hd : writerOwned (s.desc q) = false) :
    readerStep s r = some (s.setReader r (.advCas prev q (s.desc q))) := by
  rw [← and_writerOwned] at hd
  simp only [readerStep, h, if_pos hd]

theorem step_advCas {prev q : ℕ} {d : Desc} (h : s.reader r = .advCas prev q d)
    (hd : s.desc q = d) :
    readerStep s r = some ((s.setDesc q (d ||| kdataDscReaderBit r)).setReader r
      (.nextStoreRhead prev q)) := by
  simp only [readerStep, h, hd, if_true]

theorem step_nextStoreRhead {prev q : ℕ} (h : s.reader r = .nextStoreRhead prev q) :
    readerStep s r = some ({ s with rhead := Function.update s.rhead r q }.setReader r
      (.nextLoadEntered prev q)) := by
  simp only [readerStep, h]

theorem step_nextLoadEntered {prev q : ℕ} (h : s.reader r = .nextLoadEntered prev q)
    (he : s.entered r = true) : readerStep s r = some (s.setReader r (.relRead prev q)) := by
  simp only [readerStep, h, he, if_true]

theorem step_relRead {prev q : ℕ} (h : s.reader r = .relRead prev q) :
    readerStep s r = some (s.setReader r (.relCas prev q (s.desc prev))) := by
  simp only [readerStep, h]

theorem step_relCas {prev q : ℕ} {d : Desc} (h : s.reader r = .relCas prev q d)
    (hd : s.desc prev = d) :
    readerStep s r = some ((s.setDesc prev (releaseVal r d)).setReader r (.relConsumed q)) := by
  simp only [readerStep, h, hd, if_true]

theorem step_relConsumed {q : ℕ} (h : s.reader r = .relConsumed q) :
    readerStep s r = some ({ s with
      consumed := Function.update s.consumed 0 (s.consumed 0 + 1) }.setReader r
        (.nextStoreEntered q)) := by
  simp only [readerStep, h]

theorem step_nextStoreEntered {q : ℕ} (h : s.reader r = .nextStoreEntered q) :
    readerStep s r = some ({ s with entered := Function.update s.entered r true }.setReader r
      (.nextReturn q)) := by
  simp only [readerStep, h]

theorem step_nextReturn {q : ℕ} (h : s.reader r = .nextReturn q) :
    readerStep s r = some ({ s with
      hist := { s.hist with
        recv := Function.update s.hist.recv r (s.hist.recv r ++ [s.page q]) } }.setReader r
          .idle) := by
  simp only [readerStep, h]

end Equations

/-! ## The stretches of a round -/

section Stretches
variable {W : ℕ} {s : State W ℕ} {w : Fin W}

/-- After the claim of page `p`, which no one had, to store `m` in it. -/
def claimed (s : State W ℕ) (w : Fin W) (m p : ℕ) : State W ℕ :=
  { (s.setDesc p kdataDscWriterOwned).kill p with
    writer := Function.update s.writer w ⟨.firstStoreWresv p, m⟩ }

/-- After the publication of page `p`. -/
def published (s : State W ℕ) (w : Fin W) (p : ℕ) : State W ℕ :=
  { s with
    whead := p
    wresv := p
    produced := s.produced + 1
    desc := Function.update s.desc p (s.desc p &&& ~~~kdataDscWriterOwned)
    page := Function.update s.page p (some ⟨s.hist.filled, (s.writer w).data⟩)
    writer := Function.update s.writer w ⟨.idle, (s.writer w).data⟩
    hist := { s.hist with
      filled := s.hist.filled + 1
      written := s.hist.written ++ [(s.writer w).data]
      live := Function.update s.hist.live p true } }

theorem run_writer {as : List (Act W ℕ)} {s' : State W ℕ} (h : writerStep s w = some s') :
    run (ring W ℕ) s (.writer w :: as) = run (ring W ℕ) s' as := by
  exact runIf_cons rfl h

theorem run_reader {r : ReaderId} {as : List (Act W ℕ)} {s' : State W ℕ}
    (h : readerStep s r = some s') :
    run (ring W ℕ) s (.reader r :: as) = run (ring W ℕ) s' as := by
  exact runIf_cons rfl h

theorem run_nil : run (ring W ℕ) s [] = some s := rfl

theorem run_start {m : ℕ} {as : List (Act W ℕ)} (h : (s.writer w).pc = .idle) :
    run (ring W ℕ) s (.start w m :: as) =
      run (ring W ℕ) { s with writer := Function.update s.writer w ⟨.findLoadWhead, m⟩ } as := by
  refine runIf_cons rfl ?_
  simp only [ring, step, startStep, h]

theorem findTest_zero (p : ℕ) : findTest p 0 = .findClaimCas p 0 := by
  unfold findTest
  simp

theorem step_findRead_free {p : ℕ} (h : (s.writer w).pc = .findRead p) (hfree : s.desc p = 0) :
    writerStep s w = some (s.setWriter w (.findClaimCas p 0)) := by
  rw [step_findRead h, hfree, findTest_zero]

theorem run_publish {p : ℕ} (h : (s.writer w).pc = .firstStoreWresv p) :
    run (ring W ℕ) s (writes w 8) = some (published s w p) := by
  simp only [writes, List.replicate]
  rw [run_writer (step_firstStoreWresv h), run_writer (step_fill (setWriter_pc _ _ _)),
    run_writer (step_secondLoadWresv (setWriter_pc _ _ _)),
    run_writer (step_releaseRead (setWriter_pc _ _ _)),
    run_writer (step_releaseCas (setWriter_pc _ _ _) rfl),
    run_writer (step_secondLoadWresvAgain (setWriter_pc _ _ _)),
    run_writer (step_secondStoreWhead (setWriter_pc _ _ _)),
    run_writer (step_addProduced (setWriter_pc _ _ _)), run_nil]
  simp [published, State.setWriter, State.setDesc]

theorem run_claim {m p : ℕ} (h : (s.writer w).pc = .idle) (hp : kdataNext s.whead = p)
    (hfree : s.desc p = 0) :
    run (ring W ℕ) s (.start w m :: writes w 3) = some (claimed s w m p) := by
  subst hp
  simp only [writes, List.replicate]
  rw [run_start h, run_writer (step_findLoadWhead (by simp)),
    run_writer (step_findRead_free (setWriter_pc _ _ _) (by exact hfree)),
    run_writer (step_findClaimCas (setWriter_pc _ _ _) (by exact hfree)), run_nil]
  simp [claimed, State.setWriter, State.setDesc, State.kill]

end Stretches

/-! ## `kdata_find_write_loc` without interference -/

section Find
variable {W : ℕ} {β : Type} {s s' t : State W β} {w : Fin W}

/-- The page the next access of the writer visits, if that is the load of a descriptor in
`kdata_find_write_loc`. -/
def visit : WriterPc → List ℕ
  | .findRead whead => [whead]
  | _ => []

/-- Writer `w` goes alone from the first state to the second and visits the listed pages. -/
inductive FindRun (w : Fin W) : State W β → List ℕ → State W β → Prop
  | refl (s : State W β) : FindRun w s [] s
  | next {s t s' : State W β} {vs : List ℕ} (h : writerStep s w = some t)
      (rest : FindRun w t vs s') : FindRun w s (visit (s.writer w).pc ++ vs) s'

theorem FindRun.trans {vs us : List ℕ} (h : FindRun w s vs t) (h' : FindRun w t us s') :
    FindRun w s (vs ++ us) s' := by
  induction h with
  | refl => exact h'
  | next hs _ ih =>
    rw [List.append_assoc]
    exact .next hs (ih h')

/-- The registration of the skips visits no page and changes only the counters. -/
theorem find_skips {p : ℕ} {d : Desc} {i : ReaderId} (h : (s.writer w).pc = .findSkip p d i) :
    ∃ skips, FindRun w s [] ({ s with skips := skips }.setWriter w (.findSkipCas p d)) := by
  induction hn : kdataReaders - i.val generalizing s i with
  | zero =>
    have := i.isLt
    omega
  | succ n ih =>
    -- one iteration of the loop ends at its head, with `skipNext`
    have hiter : ∃ skips, FindRun w s [] ({ s with skips := skips }.setWriter w
        (skipNext p d i)) := by
      by_cases hb : d &&& kdataDscReaderBit i ≠ 0
      · have h1 : writerStep s w = some (s.setWriter w (.findSkipStore p d i (s.skips i))) := by
          simp only [writerStep, h, if_pos hb]
        refine ⟨Function.update s.skips i (s.skips i + 1), ?_⟩
        have h2 : writerStep (s.setWriter w (.findSkipStore p d i (s.skips i))) w =
            some ({ s with skips := Function.update s.skips i (s.skips i + 1) }.setWriter w
              (skipNext p d i)) := by
          simp [writerStep, State.setWriter]
        have := FindRun.next h1 (.next h2 (.refl _))
        simpa [h, visit] using this
      · have h1 : writerStep s w = some (s.setWriter w (skipNext p d i)) := by
          simp only [writerStep, h, if_neg hb]
        refine ⟨s.skips, ?_⟩
        have := FindRun.next h1 (.refl _)
        simpa [h, visit] using this
    obtain ⟨skips, hrun⟩ := hiter
    unfold skipNext at hrun
    split at hrun
    · next hlt =>
      obtain ⟨skips', hrest⟩ := ih (i := ⟨i.val + 1, hlt⟩)
        (setWriter_pc { s with skips := skips } w _) (by simp only; omega)
      refine ⟨skips', ?_⟩
      have := hrun.trans hrest
      simpa [State.setWriter] using this
    · exact ⟨skips, hrun⟩

theorem find_busy {p : ℕ} (h : (s.writer w).pc = .findRead p)
    (hbusy : ∃ r, readerBit r (s.desc p) = true) (hown : writerOwned (s.desc p) = false) :
    ∃ t, FindRun w s [p] t ∧ (t.writer w).pc = .findRead (kdataNext p) ∧
      ∀ r q, readerBit r (t.desc q) = readerBit r (s.desc q) := by
  have htest : findTest p (s.desc p) = .findSkip p (s.desc p) 0 := by
    obtain ⟨he, _⟩ | ⟨_, hw⟩ | ⟨_, _, _, hnone⟩ := findTest_cases p (s.desc p)
    · exact he
    · rw [hown] at hw
      cases hw
    · obtain ⟨r, hr⟩ := hbusy
      rw [hnone r] at hr
      cases hr
  have h1 := step_findRead h
  rw [htest] at h1
  obtain ⟨skips, hskips⟩ := find_skips (setWriter_pc s w (.findSkip p (s.desc p) 0))
  have hcas := step_findSkipCas (setWriter_pc { s.setWriter w (.findSkip p (s.desc p) 0) with
    skips := skips } w (.findSkipCas p (s.desc p))) rfl
  have hrun := FindRun.next h1 (hskips.trans (.next hcas (.refl _)))
  simp only [h, setWriter_pc, visit, List.append_nil] at hrun
  refine ⟨_, hrun, setWriter_pc _ _ _, ?_⟩
  intro r q
  simp only [State.setWriter, State.kill, State.setDesc]
  by_cases hq : q = p
  · subst hq
    simp
  · rw [Function.update_of_ne hq]

theorem find_free {p : ℕ} (h : (s.writer w).pc = .findRead p) (hown : writerOwned (s.desc p) = false)
    (hskip : skipped (s.desc p) = false) (hfree : ∀ r, readerBit r (s.desc p) = false) :
    ∃ t, FindRun w s [p] t ∧ (t.writer w).pc = .firstStoreWresv p ∧
      ∀ r, readerBit r (t.desc p) = false := by
  have htest : findTest p (s.desc p) = .findClaimCas p (s.desc p) := by
    obtain ⟨_, hs | ⟨r, hr⟩⟩ | ⟨_, hw⟩ | ⟨he, _⟩ := findTest_cases p (s.desc p)
    · rw [hskip] at hs
      cases hs
    · rw [hfree r] at hr
      cases hr
    · rw [hown] at hw
      cases hw
    · exact he
  have h1 := step_findRead h
  rw [htest] at h1
  have hcas := step_findClaimCas (setWriter_pc s w (.findClaimCas p (s.desc p))) rfl
  have hrun := FindRun.next h1 (.next hcas (.refl _))
  simp only [h, setWriter_pc, visit, List.append_nil] at hrun
  refine ⟨_, hrun, setWriter_pc _ _ _, ?_⟩
  intro r
  simpa [State.setWriter, State.kill, State.setDesc] using hfree r

theorem kdataNext_eq {p : ℕ} (hp : p < kdataNpages) : kdataNext p = (p + 1) % kdataNpages := by
  unfold kdataNext
  split
  · rw [show p + 1 = kdataNpages by omega, Nat.mod_self]
  · rw [Nat.mod_eq_of_lt (by omega)]

theorem kdataNext_lt (p : ℕ) : kdataNext p < kdataNpages := by
  unfold kdataNext
  split
  · decide
  · omega

theorem kdataNext_iterate {p : ℕ} (hp : p < kdataNpages) (i : ℕ) :
    kdataNext^[i] p = (p + i) % kdataNpages := by
  induction i with
  | zero => simp [Nat.mod_eq_of_lt hp]
  | succ i ih =>
    rw [Function.iterate_succ_apply', ih, kdataNext_eq (Nat.mod_lt _ (by decide)),
      Nat.mod_add_mod, Nat.add_assoc]

/-- Some reader has the page. -/
def Busy (s : State W β) (p : ℕ) : Prop := ∃ r, readerBit r (s.desc p) = true

theorem exists_not_busy (hi : DescInv s) {p : ℕ} (hp : p < kdataNpages) :
    ∃ k < 2 * kdataReaders + 1, ¬ Busy s (kdataNext^[k] p) := by
  by_contra hall
  push Not at hall
  let held : Finset ℕ := Finset.univ.biUnion fun r : ReaderId => (bitPages s r).toFinset
  have hcard : held.card ≤ 2 * kdataReaders := by
    have h2 : ∀ r ∈ (Finset.univ : Finset ReaderId), (bitPages s r).toFinset.card ≤ 2 :=
      fun r _ => (List.toFinset_card_le _).trans (bitPages_length s r)
    have := Finset.card_biUnion_le_card_mul _ _ 2 h2
    simpa [held, Nat.mul_comm] using this
  have hinj : Set.InjOn (fun i => kdataNext^[i] p) (Finset.range (2 * kdataReaders + 1)) := by
    intro i hi j hj hij
    simp only [Finset.coe_range, Set.mem_Iio] at hi hj
    simp only [kdataNext_iterate hp, kdataNpages, kdataReaders] at hij hi hj hp
    omega
  have hsub : (Finset.range (2 * kdataReaders + 1)).image (fun i => kdataNext^[i] p) ⊆ held := by
    intro q hq
    obtain ⟨i, hi', rfl⟩ := Finset.mem_image.1 hq
    obtain ⟨r, hr⟩ := hall i (Finset.mem_range.1 hi')
    exact Finset.mem_biUnion.2 ⟨r, Finset.mem_univ r, List.mem_toFinset.2 (hi.bits r _ hr)⟩
  have hle := Finset.card_le_card hsub
  rw [Finset.card_image_of_injOn hinj, Finset.card_range] at hle
  omega

theorem FindRun.reach [Inhabited β] {vs : List ℕ} (h : FindRun w s vs t)
    (hr : Reach (ring W β) s) : Reach (ring W β) t := by
  induction h with
  | refl => exact hr
  | next hs _ ih => exact ih (.next (a := .writer w) hr trivial hs)

end Find

section Alone
variable {β : Type} [Inhabited β] {s : State 1 β}

theorem unowned_of_own_none (hr : Reach (ring 1 β) s) (hown : own (s.writer 0).pc = none) (p : ℕ) :
    writerOwned (s.desc p) = false := by
  refine Bool.eq_false_iff.2 fun hp => ?_
  obtain ⟨w, hw⟩ := (ownInv_single hr).owner p hp
  obtain rfl : w = 0 := Subsingleton.elim _ _
  rw [hown] at hw
  cases hw

/-- The search passes over the pages readers have and takes the first other one. -/
theorem find_first {k p : ℕ} (hr : Reach (ring 1 β) s) (hpc : (s.writer 0).pc = .findRead p)
    (hbusy : ∀ i < k, Busy s (kdataNext^[i] p)) (hfree : ¬ Busy s (kdataNext^[k] p)) :
    ∃ vs t q, FindRun 0 s vs t ∧ (t.writer 0).pc = .firstStoreWresv q ∧ vs.length = k + 1 ∧
      ∀ r, readerBit r (t.desc q) = false := by
  have hown : ∀ q, writerOwned (s.desc q) = false :=
    unowned_of_own_none hr (by rw [hpc]; rfl)
  induction k generalizing s p with
  | zero =>
    have hnone : ∀ r, readerBit r (s.desc p) = false :=
      fun r => Bool.eq_false_iff.2 fun h => hfree ⟨r, h⟩
    have hskip : skipped (s.desc p) = false :=
      Bool.eq_false_iff.2 fun h => hfree ((descInv_run hr).marked p h)
    obtain ⟨t, hrun, ht, hbits⟩ := find_free hpc (hown p) hskip hnone
    exact ⟨[p], t, p, hrun, ht, rfl, hbits⟩
  | succ k ih =>
    obtain ⟨t, hrun, ht, hbits⟩ := find_busy hpc (hbusy 0 (by omega)) (hown p)
    have hsame : ∀ q, Busy t q ↔ Busy s q := fun q => by simp only [Busy, hbits]
    have hrt := hrun.reach hr
    obtain ⟨vs, u, q, hrest, hu, hlen, hq⟩ := ih hrt ht
      (fun i hi => (hsame _).2 (hbusy (i + 1) (by omega)))
      (fun h => hfree ((hsame _).1 h)) (unowned_of_own_none hrt (by rw [ht]; rfl))
    refine ⟨p :: vs, u, q, hrun.trans hrest, hu, ?_, hq⟩
    rw [List.length_cons, hlen]

/-- `kdata_find_write_loc`, called in any reachable state and left alone, ends. -/
theorem find_alone (hr : Reach (ring 1 β) s) (hpc : (s.writer 0).pc = .findLoadWhead) :
    ∃ vs t q, FindRun 0 s vs t ∧ (t.writer 0).pc = .firstStoreWresv q ∧
      vs.length ≤ 2 * kdataReaders + 1 ∧ ∀ r, readerBit r (t.desc q) = false := by
  have hload := step_findLoadWhead hpc
  set u := s.setWriter 0 (.findRead (kdataNext s.whead)) with hu
  have hru : Reach (ring 1 β) u := .next (a := .writer 0) hr trivial hload
  have hex := exists_not_busy (descInv_run hru) (kdataNext_lt s.whead)
  classical
  obtain ⟨hk, hfree⟩ := Nat.find_spec hex
  obtain ⟨vs, t, q, hrun, ht, hlen, hq⟩ := find_first hru (setWriter_pc _ _ _)
    (fun i hi => by
      have := Nat.find_min hex hi
      push Not at this
      exact this (by omega)) hfree
  refine ⟨vs, t, q, ?_, ht, by omega, hq⟩
  have := FindRun.next hload hrun
  simpa [hpc, visit] using this

end Alone

end Netp.Kring.Data
