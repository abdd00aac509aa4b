import Netp.Kring.DataInv

/-! # Which writer has which page

A writer gets a page in `kdata_write_FIRST` and gives it back in `kdata_write_SECOND`, but what
SECOND gives back is whatever page `head->wresv` names by then. In runs in which that is always the
writer's own page (`ownWresv`) the pages marked `KDATA_DSC_WRITER_OWNED` are exactly those the
writers have, one writer a page (`OwnInv`). A writer that is alone is always in such a run.
-/

namespace Netp.Kring.Data
open Netp.Lib
set_option autoImplicit false

section Own
variable {W : ℕ} {β : Type} {s s' : State W β}

/-- The page a writer has, from the claim in `kdata_find_write_loc` to the release in
`kdata_write_SECOND`. -/
def own : WriterPc → Option ℕ
  | .firstStoreWresv page | .fill page | .secondLoadWresv page | .releaseRead page _
  | .releaseCas page _ _ => some page
  | _ => none

/-- The step is not one in which `kdata_write_SECOND` loads from `head->wresv` a page other than
the one its writer has. -/
def ownWresv (s : State W β) : Act W β → Bool
  | .writer w =>
      match (s.writer w).pc with
      | .secondLoadWresv page => s.wresv == page
      | _ => true
  | _ => true

/-- What a writer that is giving its page back has read. -/
def ReleaseFacts (s : State W β) (w : Fin W) : Prop :=
  match (s.writer w).pc with
  | .releaseRead page wresv => wresv = page
  | .releaseCas page wresv desc => wresv = page ∧ s.desc page = desc
  | _ => True

structure OwnInv (s : State W β) : Prop where
  owned : ∀ w p, own (s.writer w).pc = some p → writerOwned (s.desc p) = true
  owner : ∀ p, writerOwned (s.desc p) = true → ∃ w, own (s.writer w).pc = some p
  apart : ∀ w u p, own (s.writer w).pc = some p → own (s.writer u).pc = some p → w = u
  release : ∀ w, ReleaseFacts s w

theorem ReleaseFacts.frame {w : Fin W} (h : ReleaseFacts s w) (hw : s'.writer w = s.writer w)
    (hdesc : ∀ p, own (s.writer w).pc = some p → s'.desc p = s.desc p) : ReleaseFacts s' w := by
  unfold ReleaseFacts at h ⊢
  rw [hw]
  cases hpc : (s.writer w).pc
  all_goals simp only [hpc] at h ⊢
  all_goals try exact h
  case releaseCas page wresv d =>
    rw [hdesc page (by rw [hpc]; rfl)]
    exact h

theorem OwnInv.keep (h : OwnInv s) (hown : ∀ u, own (s'.writer u).pc = own (s.writer u).pc)
    (hbit : ∀ p, writerOwned (s'.desc p) = writerOwned (s.desc p))
    (hrel : ∀ u, ReleaseFacts s' u) : OwnInv s' where
  owned w p hp := by
    rw [hbit]
    exact h.owned w p (by rw [← hown, hp])
  owner p hp := by
    rw [hbit] at hp
    obtain ⟨w, hw⟩ := h.owner p hp
    exact ⟨w, by rw [hown, hw]⟩
  apart w u p hw hu := by
    rw [hown] at hw hu
    exact h.apart w u p hw hu
  release := hrel

theorem ReaderChange.desc_owned {r : ReaderId} (h : ReaderChange r s s') (hi : DescInv s) {p : ℕ}
    (hp : writerOwned (s.desc p) = true) : s'.desc p = s.desc p := by
  cases h with
  | same h => rw [h]
  | claim prev q hpc h =>
    have hr := hi.readers r
    simp only [ReaderFacts, hpc] at hr
    rw [h, Function.update_of_ne]
    intro he
    rw [he, hr.2] at hp
    cases hp
  | release q hpc h =>
    by_cases he : p = q
    · subst he
      rw [h, Function.update_self]
      have hnone := fun r => hi.apart p r hp
      refine releaseVal_eq_self _ _ (hnone r) (Bool.eq_false_iff.2 fun hs => ?_)
      obtain ⟨r', hr'⟩ := hi.marked p hs
      rw [hnone r'] at hr'
      cases hr'
    · rw [h, Function.update_of_ne he]

theorem ownInv_reader {r : ReaderId} (hi : DescInv s) (ho : OwnInv s) (hf : ReaderFrame r s s')
    (hc : ReaderChange r s s') : OwnInv s' := by
  refine ho.keep (fun u => by rw [hf.writer]) hc.writerOwned_eq fun u => ?_
  exact (ho.release u).frame (by rw [hf.writer]) fun p hp => hc.desc_owned hi (ho.owned u p hp)

/-- A step of a writer that changes no descriptor and neither gets nor gives up a page. -/
theorem OwnInv.move (h : OwnInv s) {w : Fin W} (hf : WriterFrame w s s')
    (hdesc : s'.desc = s.desc) (hown : own (s'.writer w).pc = own (s.writer w).pc)
    (hrel : ReleaseFacts s' w) : OwnInv s' := by
  refine h.keep ?_ (fun p => by rw [hdesc]) ?_
  · intro u
    by_cases hu : u = w
    · subst hu
      exact hown
    · rw [hf.others u hu]
  · intro u
    by_cases hu : u = w
    · subst hu
      exact hrel
    · exact (h.release u).frame (hf.others u hu) fun p _ => by rw [hdesc]

/-- The mark of a page passed over: it is not one that a writer has. -/
theorem OwnInv.skip (h : OwnInv s) (hi : DescInv s) {w : Fin W} {p : ℕ}
    (hf : WriterFrame w s s') (hpc : (s.writer w).pc = .findSkipCas p (s.desc p))
    (hdesc : s'.desc = Function.update s.desc p (s.desc p ||| kdataDscSkipped))
    (hnew : own (s'.writer w).pc = none) (hrel : ReleaseFacts s' w) : OwnInv s' := by
  have hfree : writerOwned (s.desc p) = false := by
    have hw := hi.writers w
    rw [hpc] at hw
    have hbit : ∃ r, readerBit r (s.desc p) = true := by
      rcases hw with hw | hw
      · exact hi.marked p hw
      · exact hw
    obtain ⟨r, hr⟩ := hbit
    refine Bool.eq_false_iff.2 fun ho => ?_
    rw [hi.apart p r ho] at hr
    cases hr
  refine h.keep ?_ ?_ ?_
  · intro u
    by_cases hu : u = w
    · subst hu
      rw [hnew, hpc]
      rfl
    · rw [hf.others u hu]
  · intro q
    rw [hdesc]
    by_cases hq : q = p
    · subst hq
      simp
    · rw [Function.update_of_ne hq]
  · intro u
    by_cases hu : u = w
    · subst hu
      exact hrel
    · refine (h.release u).frame (hf.others u hu) fun q hq => ?_
      rw [hdesc, Function.update_of_ne]
      intro he
      have := h.owned u q hq
      rw [he, hfree] at this
      cases this

theorem OwnInv.take (h : OwnInv s) {w : Fin W} {p : ℕ} (hf : WriterFrame w s s')
    (hfree : writerOwned (s.desc p) = false) (hold : own (s.writer w).pc = none)
    (hdesc : s'.desc = Function.update s.desc p (s.desc p ||| kdataDscWriterOwned))
    (hnew : own (s'.writer w).pc = some p) (hrel : ReleaseFacts s' w) : OwnInv s' := by
  have hother : ∀ u q, u ≠ w → own (s'.writer u).pc = some q →
      own (s.writer u).pc = some q ∧ q ≠ p := by
    intro u q hu hq
    rw [hf.others u hu] at hq
    refine ⟨hq, fun he => ?_⟩
    have := h.owned u q hq
    rw [he, hfree] at this
    cases this
  refine ⟨?_, ?_, ?_, ?_⟩
  · intro u q hq
    rw [hdesc]
    by_cases hu : u = w
    · subst hu
      rw [hnew] at hq
      cases hq
      simp
    · obtain ⟨h1, h2⟩ := hother u q hu hq
      rw [Function.update_of_ne h2]
      exact h.owned u q h1
  · intro q hq
    by_cases he : q = p
    · exact ⟨w, he ▸ hnew⟩
    · rw [hdesc, Function.update_of_ne he] at hq
      obtain ⟨u, hu⟩ := h.owner q hq
      refine ⟨u, ?_⟩
      rw [hf.others u, hu]
      intro huw
      rw [huw, hold] at hu
      cases hu
  · intro u v q hu hv
    by_cases huw : u = w <;> by_cases hvw : v = w
    · rw [huw, hvw]
    · rw [huw, hnew] at hu
      cases hu
      exact absurd rfl (hother v p hvw hv).2
    · rw [hvw, hnew] at hv
      cases hv
      exact absurd rfl (hother u p huw hu).2
    · exact h.apart u v q (hother u q huw hu).1 (hother v q hvw hv).1
  · intro u
    by_cases hu : u = w
    · subst hu
      exact hrel
    · refine (h.release u).frame (hf.others u hu) fun q hq => ?_
      rw [hdesc, Function.update_of_ne]
      exact (hother u q hu (by rw [hf.others u hu, hq])).2

theorem OwnInv.give (h : OwnInv s) {w : Fin W} {p : ℕ} (hf : WriterFrame w s s')
    (hold : own (s.writer w).pc = some p)
    (hdesc : s'.desc = Function.update s.desc p (s.desc p &&& ~~~kdataDscWriterOwned))
    (hnew : own (s'.writer w).pc = none) (hrel : ReleaseFacts s' w) : OwnInv s' := by
  have hother : ∀ u q, own (s'.writer u).pc = some q → own (s.writer u).pc = some q ∧ q ≠ p := by
    intro u q hq
    have hu : u ≠ w := by
      intro hu
      rw [hu, hnew] at hq
      cases hq
    rw [hf.others u hu] at hq
    refine ⟨hq, fun he => hu ?_⟩
    exact h.apart u w p (he ▸ hq) hold
  refine ⟨?_, ?_, ?_, ?_⟩
  · intro u q hq
    obtain ⟨h1, h2⟩ := hother u q hq
    rw [hdesc, Function.update_of_ne h2]
    exact h.owned u q h1
  · intro q hq
    by_cases he : q = p
    · rw [hdesc, he, Function.update_self, writerOwned_give] at hq
      cases hq
    · rw [hdesc, Function.update_of_ne he] at hq
      obtain ⟨u, hu⟩ := h.owner q hq
      refine ⟨u, ?_⟩
      rw [hf.others u, hu]
      intro huw
      rw [huw, hold] at hu
      cases hu
      exact he rfl
  · intro u v q hu hv
    exact h.apart u v q (hother u q hu).1 (hother v q hv).1
  · intro u
    by_cases hu : u = w
    · subst hu
      exact hrel
    · refine (h.release u).frame (hf.others u hu) fun q hq => ?_
      rw [hdesc, Function.update_of_ne]
      exact (hother u q (by rw [hf.others u hu, hq])).2

theorem ownInv_writer {w : Fin W} (hi : DescInv s) (ho : OwnInv s)
    (hok : ownWresv s (.writer w) = true) (h : writerStep s w = some s') : OwnInv s' := by
  have hf := writerStep_frame h
  have hw := hi.writers w
  have hr := ho.release w
  cases hpc : (s.writer w).pc
  all_goals simp only [ReleaseFacts, hpc] at hr
  all_goals simp only [ownWresv, hpc] at hok
  all_goals simp only [writerStep, hpc] at h
  all_goals try split at h
  all_goals cases h
  case findSkipCas.isTrue p d hd =>
    subst hd
    exact ho.skip hi hf hpc rfl (by simp [State.setWriter, own])
      (by simp [ReleaseFacts, State.setWriter])
  case findClaimCas.isTrue p d hd =>
    subst hd
    rw [hpc] at hw
    exact ho.take hf hw.1 (by rw [hpc]; rfl) rfl (by simp [State.setWriter, own])
      (by simp [ReleaseFacts, State.setWriter])
  case releaseCas.isTrue page p d hd =>
    subst hd
    obtain ⟨rfl, _⟩ := hr
    exact ho.give hf (by rw [hpc]; rfl) rfl (by simp [State.setWriter, own])
      (by simp [ReleaseFacts, State.setWriter])
  case releaseCas.isFalse page p d hd =>
    obtain ⟨rfl, hr⟩ := hr
    exact absurd hr hd
  case findRead p =>
    obtain ⟨he, _⟩ | ⟨he, _⟩ | ⟨he, _⟩ := findTest_cases p (s.desc p)
    all_goals refine ho.move hf rfl ?_ ?_
    all_goals simp [ReleaseFacts, State.setWriter, own, hpc, he]
  case findSkip.isFalse p d id _ | findSkipStore p d id _ =>
    obtain ⟨id', he⟩ | he := skipNext_cases p d id
    all_goals refine ho.move hf rfl ?_ ?_
    all_goals simp [ReleaseFacts, State.setWriter, own, hpc, he]
  all_goals refine ho.move hf rfl ?_ ?_
  all_goals simp_all [ReleaseFacts, State.setWriter, own]

theorem ownInv_step {a : Act W β} (hi : DescInv s) (ho : OwnInv s) (hok : ownWresv s a = true)
    (h : step s a = some s') : OwnInv s' := by
  cases a with
  | start w m =>
    obtain ⟨hpc, rfl⟩ := start_eq h
    refine ho.move (start_frame w _) rfl ?_ ?_
    · simp [hpc, own]
    · simp [ReleaseFacts]
  | writer w => exact ownInv_writer hi ho hok h
  | attach r =>
    obtain ⟨_, rfl⟩ := attach_eq h
    exact ownInv_reader hi ho (setReader_frame r _) (.same rfl)
  | detach r =>
    obtain ⟨_, rfl⟩ := detach_eq h
    exact ownInv_reader hi ho (setReader_frame r _) (.same rfl)
  | reader r => exact ownInv_reader hi ho (readerStep_frame h) (readerStep_desc h)

theorem ownInv_init [Inhabited β] : OwnInv (kdataInitControl : State W β) where
  owned w p h := by simp [kdataInitControl, own] at h
  owner p h := by simp [kdataInitControl, writerOwned] at h
  apart w u p h := by simp [kdataInitControl, own] at h
  release w := trivial

theorem ownInv_run [Inhabited β] {ok : State W β → Act W β → Prop}
    (hok : ∀ s a, ok s a → ownWresv s a = true) (h : ReachIf (ring W β) ok s) : OwnInv s := by
  have hboth : DescInv s ∧ OwnInv s := by
    refine h.invariant (I := fun s => DescInv s ∧ OwnInv s) ⟨descInv_init, ownInv_init⟩ ?_
    intro t a t' ht hta hs
    exact ⟨descInv_step ht.1 hs, ownInv_step ht.1 ht.2 (hok t a hta) hs⟩
  exact hboth.2

end Own

/-! ## One writer alone -/

section Single
variable {β : Type} {s s' : State 1 β}

/-- With one writer `head->wresv` is its page from FIRST's store on, and `head->whead` outside a
round. -/
def WresvFacts (s : State 1 β) : Prop :=
  match (s.writer 0).pc with
  | .fill page | .secondLoadWresv page | .releaseRead page _ | .releaseCas page _ _
  | .secondStoreWhead page => s.wresv = page
  | .secondLoadWresvAgain => True
  | _ => s.wresv = s.whead

theorem wresvFacts_writer (hi : WresvFacts s) (h : writerStep s 0 = some s') : WresvFacts s' := by
  unfold WresvFacts at hi ⊢
  cases hpc : (s.writer 0).pc
  all_goals simp only [hpc] at hi
  all_goals simp only [writerStep, hpc] at h
  all_goals try split at h
  all_goals cases h
  case findRead p =>
    obtain ⟨he, _⟩ | ⟨he, _⟩ | ⟨he, _⟩ := findTest_cases p (s.desc p)
    all_goals simp [State.setWriter, he, hi]
  case findSkip.isFalse p d id _ | findSkipStore p d id _ =>
    obtain ⟨id', he⟩ | he := skipNext_cases p d id
    all_goals simp [State.setWriter, he, hi]
  all_goals simp_all [State.setWriter, State.setDesc, State.kill]

theorem wresvFacts_step {a : Act 1 β} (hi : WresvFacts s) (h : step s a = some s') :
    WresvFacts s' := by
  cases a with
  | start w m =>
    obtain ⟨hpc, rfl⟩ := start_eq h
    obtain rfl : w = 0 := Subsingleton.elim _ _
    unfold WresvFacts at hi ⊢
    simp only [hpc] at hi
    simpa using hi
  | writer w =>
    obtain rfl : w = 0 := Subsingleton.elim _ _
    exact wresvFacts_writer hi h
  | attach r =>
    obtain ⟨_, rfl⟩ := attach_eq h
    exact hi
  | detach r =>
    obtain ⟨_, rfl⟩ := detach_eq h
    exact hi
  | reader r =>
    have hf := readerStep_frame h
    unfold WresvFacts at hi ⊢
    rw [hf.writer, hf.wresv, hf.whead]
    exact hi

theorem wresvFacts_run [Inhabited β] {ok : State 1 β → Act 1 β → Prop}
    (h : ReachIf (ring 1 β) ok s) : WresvFacts s :=
  h.invariant (I := WresvFacts) (show WresvFacts kdataInitControl from rfl)
    fun _ _ _ hi _ hs => wresvFacts_step hi hs

theorem ownWresv_single [Inhabited β] {ok : State 1 β → Act 1 β → Prop}
    (h : ReachIf (ring 1 β) ok s) (a : Act 1 β) : ownWresv s a = true := by
  have hi := wresvFacts_run h
  cases a with
  | writer w =>
    obtain rfl : w = 0 := Subsingleton.elim _ _
    simp only [ownWresv]
    split
    · next page hpc =>
      simp only [WresvFacts, hpc] at hi
      simp [hi]
    · rfl
  | _ => rfl

theorem ownInv_single [Inhabited β] {ok : State 1 β → Act 1 β → Prop}
    (h : ReachIf (ring 1 β) ok s) : OwnInv s := by
  have h' : ReachIf (ring 1 β) (fun s a => ownWresv s a) s :=
    h.imp fun t a ht _ _ => ownWresv_single ht a
  exact ownInv_run (fun _ _ h => h) h'

end Single

/-! ## Several writers -/

section Several
variable {W : ℕ} {β : Type} {s : State W β}

/-- The reader is attached and not in `kdata_next_generic`. -/
def outside : ReaderPc → Bool
  | .idle | .availLoadWhead _ | .leaveLoadEntered | .leaveLoadRhead | .leaveRead _
  | .leaveCas _ _ => true
  | _ => false

/-- What readers and writers of one ring may rely on. -/
structure WritersApart (s : State W β) : Prop where
  /-- The page `kdata_next_generic` hands out is not one a writer has. -/
  handed : ∀ r rhead, s.reader r = .nextReturn rhead → ∀ w, own (s.writer w).pc ≠ some rhead
  /-- Nor does a writer get it while the reader keeps it. -/
  kept : ∀ r, outside (s.reader r) = true → s.entered r = true →
    ∀ w, own (s.writer w).pc ≠ some (s.rhead r)
  /-- Between the rounds of all writers no page is marked as a writer's. -/
  quiet : (∀ w, own (s.writer w).pc = none) → ∀ p, writerOwned (s.desc p) = false

theorem outside_bitPages {r : ReaderId} (ho : outside (s.reader r) = true)
    (he : s.entered r = true) : bitPages s r = [s.rhead r] := by
  unfold bitPages
  cases hpc : s.reader r
  all_goals simp only [outside, hpc] at ho
  all_goals try cases ho
  all_goals simp [he]

theorem own_ne_of_held (hi : DescInv s) (ho : OwnInv s) {r : ReaderId} (hh : Held s r) {p : ℕ}
    (hp : p ∈ bitPages s r) (w : Fin W) : own (s.writer w).pc ≠ some p := by
  intro hw
  have hbit := hh.1 p hp
  rw [hi.apart p r (ho.owned w p hw)] at hbit
  cases hbit

/-- **Writers and readers keep apart** along every run in which SECOND finds the page of its own
writer in `head->wresv` and no reader comes round to its own page. -/
theorem writers_apart [Inhabited β] (s : State W β)
    (h : ReachIf (ring W β) (fun s a => ownWresv s a && noWrap s a) s) : WritersApart s := by
  have hi := descInv_run h
  have ho := ownInv_run (fun t a hta => (Bool.and_eq_true_iff.1 hta).1) h
  have hh := held_run (fun t a hta => (Bool.and_eq_true_iff.1 hta).2) h
  refine ⟨?_, ?_, ?_⟩
  · intro r rhead hpc
    exact own_ne_of_held hi ho (hh r) (by simp [bitPages, hpc])
  · intro r hout hent
    exact own_ne_of_held hi ho (hh r) (by simp [outside_bitPages hout hent])
  · intro hnone p
    refine Bool.eq_false_iff.2 fun hp => ?_
    obtain ⟨w, hw⟩ := ho.owner p hp
    rw [hnone w] at hw
    cases hw

end Several

/-- `n` accesses of writer `w`. -/
def writes {W : ℕ} (w : Fin W) (n : ℕ) : List (Act W ℕ) := List.replicate n (.writer w)

/-- `n` accesses of reader `r`. -/
def reads {W : ℕ} (r : ReaderId) (n : ℕ) : List (Act W ℕ) := List.replicate n (.reader r)

/-- Reader `r` enters. -/
def enters {W : ℕ} (r : ReaderId) : List (Act W ℕ) := .attach r :: reads r 6

/-- Two writers that take turns, and a reader that takes the first message. -/
def turnsSchedule : List (Act 2 ℕ) :=
  enters 0 ++ .start 0 7 :: writes 0 11 ++ .start 1 8 :: writes 1 11 ++ reads 0 9

theorem writers_apart_turns : ∃ s, runIf (ring 2 ℕ) (fun s a => ownWresv s a && noWrap s a)
    (ring 2 ℕ).init turnsSchedule = some s ∧ s.hist.written = [7, 8] ∧ WritersApart s := by
  have h : ((runIf (ring 2 ℕ) (fun s a => ownWresv s a && noWrap s a) (ring 2 ℕ).init
      turnsSchedule).map fun s => s.hist.written) = some [7, 8] := rfl
  obtain ⟨s, hs, hw⟩ := Option.map_eq_some_iff.1 h
  exact ⟨s, hs, hw, writers_apart s (ReachIf.runIf (fun _ _ h => h) .init hs)⟩

/-- Writers 0 and 1 take pages 0 and 1; the SECOND of writer 0 then gives back page 1, which writer
1 is still to fill, and the reader takes it. -/
def crossedSchedule : List (Act 2 ℕ) :=
  enters 0 ++ .start 0 7 :: writes 0 4 ++ .start 1 8 :: writes 1 5 ++ writes 0 6 ++ reads 0 9

theorem page_handed_while_owned : ∃ s : State 2 ℕ, Reach (ring 2 ℕ) s ∧ ¬ WritersApart s := by
  have h : ((run (ring 2 ℕ) (ring 2 ℕ).init crossedSchedule).map fun s =>
      (match s.reader 0 with | .nextReturn rhead => some rhead | _ => none,
        own (s.writer 1).pc)) = some (some 1, some 1) := rfl
  obtain ⟨s, hs, hp⟩ := Option.map_eq_some_iff.1 h
  refine ⟨s, Reach.run .init hs, fun ha => ?_⟩
  obtain ⟨hr, hw⟩ := Prod.mk.inj hp
  have hpc : s.reader 0 = .nextReturn 1 := by
    cases hq : s.reader 0 <;> simp only [hq] at hr <;> cases hr
    rfl
  exact ha.handed 0 1 hpc 1 hw

end Netp.Kring.Data
