import Netp.Kring.DataDesc

/-! # Invariants of the descriptors

`DescChange` says once what a step can do to the descriptors; the frame lemmas say what a party's
step leaves to the others. From these come, for every run:

* `DescInv`: a page is not with a writer and a reader at once, and a mark is only on a page some
  reader has;
* `bits_run`: the bit of a reader is only on the pages `bitPages` that its program counter accounts
  for, of which there are at most two.

The bit is on all of these pages (`held_run`) in runs in which no reader comes round to its own
page in `kdata_advance_rhead` (`noWrap`).
-/

namespace Netp.Kring.Data
open Netp.Lib
set_option autoImplicit false

section Frame
variable {W : ℕ} {β : Type} {s s' : State W β}

/-! ## What a step changes -/

/-- What a step of writer `w` can do to the descriptors; every change is a compare-and-swap that
succeeds. -/
inductive WriterChange (w : Fin W) (s s' : State W β) : Prop
  | same (h : s'.desc = s.desc)
  | skip (p : ℕ) (hpc : (s.writer w).pc = .findSkipCas p (s.desc p))
      (h : s'.desc = Function.update s.desc p (s.desc p ||| kdataDscSkipped))
  | take (p : ℕ) (hpc : (s.writer w).pc = .findClaimCas p (s.desc p))
      (h : s'.desc = Function.update s.desc p (s.desc p ||| kdataDscWriterOwned))
  | give (page p : ℕ) (hpc : (s.writer w).pc = .releaseCas page p (s.desc p))
      (h : s'.desc = Function.update s.desc p (s.desc p &&& ~~~kdataDscWriterOwned))

/-- The same for a step of reader `r`. -/
inductive ReaderChange (r : ReaderId) (s s' : State W β) : Prop
  | same (h : s'.desc = s.desc)
  | claim (prev q : ℕ) (hpc : s.reader r = .advCas prev q (s.desc q))
      (h : s'.desc = Function.update s.desc q (s.desc q ||| kdataDscReaderBit r))
  | release (p : ℕ) (hpc : (∃ q, s.reader r = .relCas p q (s.desc p)) ∨
        s.reader r = .leaveCas p (s.desc p))
      (h : s'.desc = Function.update s.desc p (releaseVal r (s.desc p)))

theorem writerStep_desc {w : Fin W} (h : writerStep s w = some s') : WriterChange w s s' := by
  cases hpc : (s.writer w).pc
  all_goals simp only [writerStep, hpc] at h
  all_goals try split at h
  all_goals cases h
  case findSkipCas.isTrue p d hd =>
    subst hd
    exact .skip p hpc rfl
  case findClaimCas.isTrue p d hd =>
    subst hd
    exact .take p hpc rfl
  case releaseCas.isTrue page p d hd =>
    subst hd
    exact .give page p hpc rfl
  all_goals exact .same rfl

theorem readerStep_desc {r : ReaderId} (h : readerStep s r = some s') : ReaderChange r s s' := by
  cases hpc : s.reader r
  all_goals simp only [readerStep, hpc] at h
  all_goals try split at h
  all_goals cases h
  case advCas.isTrue prev q d hd =>
    subst hd
    exact .claim prev q hpc rfl
  case relCas.isTrue prev q d hd =>
    subst hd
    exact .release prev (.inl ⟨q, hpc⟩) rfl
  case leaveCas.isTrue prev d hd =>
    subst hd
    exact .release prev (.inr hpc) rfl
  all_goals exact .same rfl

theorem WriterChange.readerBit_eq {w : Fin W} (h : WriterChange w s s') (r : ReaderId) (p : ℕ) :
    readerBit r (s'.desc p) = readerBit r (s.desc p) := by
  cases h with
  | same h => rw [h]
  | skip q _ h | take q _ h | give _ q _ h =>
    rw [h]
    by_cases hp : p = q
    · subst hp
      simp
    · rw [Function.update_of_ne hp]

theorem ReaderChange.readerBit_eq {r : ReaderId} (h : ReaderChange r s s') {r' : ReaderId}
    (hr : r' ≠ r) (p : ℕ) : readerBit r' (s'.desc p) = readerBit r' (s.desc p) := by
  cases h with
  | same h => rw [h]
  | claim _ q _ h | release q _ h =>
    rw [h]
    by_cases hp : p = q
    · subst hp
      simp [hr]
    · rw [Function.update_of_ne hp]

theorem ReaderChange.writerOwned_eq {r : ReaderId} (h : ReaderChange r s s') (p : ℕ) :
    writerOwned (s'.desc p) = writerOwned (s.desc p) := by
  cases h with
  | same h => rw [h]
  | claim _ q _ h | release q _ h =>
    rw [h]
    by_cases hp : p = q
    · subst hp
      simp
    · rw [Function.update_of_ne hp]

/-- What the step of a writer leaves alone. -/
structure WriterFrame (w : Fin W) (s s' : State W β) : Prop where
  reader : s'.reader = s.reader
  rhead : s'.rhead = s.rhead
  entered : s'.entered = s.entered
  entry : s'.hist.entry = s.hist.entry
  recv : s'.hist.recv = s.hist.recv
  others : ∀ u, u ≠ w → s'.writer u = s.writer u

theorem writerStep_frame {w : Fin W} (h : writerStep s w = some s') : WriterFrame w s s' := by
  cases hpc : (s.writer w).pc
  all_goals simp only [writerStep, hpc] at h
  all_goals try split at h
  all_goals cases h
  all_goals exact ⟨rfl, rfl, rfl, rfl, rfl, fun _ hu => Function.update_of_ne hu _ _⟩

theorem start_eq {w : Fin W} {m : β} (h : step s (.start w m) = some s') :
    (s.writer w).pc = .idle ∧
      s' = { s with writer := Function.update s.writer w ⟨.findLoadWhead, m⟩ } := by
  simp only [step, startStep] at h
  split at h
  · next hpc =>
    cases h
    exact ⟨hpc, rfl⟩
  · cases h

theorem start_frame (w : Fin W) (x : Writer β) :
    WriterFrame w s { s with writer := Function.update s.writer w x } :=
  ⟨rfl, rfl, rfl, rfl, rfl, fun _ hu => Function.update_of_ne hu _ _⟩

/-- What the step of a reader leaves alone. -/
structure ReaderFrame (r : ReaderId) (s s' : State W β) : Prop where
  writer : s'.writer = s.writer
  whead : s'.whead = s.whead
  wresv : s'.wresv = s.wresv
  page : s'.page = s.page
  filled : s'.hist.filled = s.hist.filled
  written : s'.hist.written = s.hist.written
  live : s'.hist.live = s.hist.live
  others : ∀ q, q ≠ r → s'.reader q = s.reader q ∧ s'.rhead q = s.rhead q ∧
    s'.entered q = s.entered q ∧ s'.hist.entry q = s.hist.entry q ∧
    s'.hist.recv q = s.hist.recv q

theorem readerStep_frame {r : ReaderId} (h : readerStep s r = some s') : ReaderFrame r s s' := by
  cases hpc : s.reader r
  all_goals simp only [readerStep, hpc] at h
  all_goals try split at h
  all_goals cases h
  all_goals refine ⟨rfl, rfl, rfl, rfl, rfl, rfl, rfl, fun q hq => ?_⟩
  all_goals simp [State.setReader, State.setDesc, Function.update_of_ne hq]

theorem attach_eq {r : ReaderId} (h : step s (.attach r) = some s') :
    s.reader r = .detached ∧ s' = s.setReader r .enterLoadWhead := by
  simp only [step] at h
  split at h
  · next hpc =>
    cases h
    exact ⟨hpc, rfl⟩
  · cases h

theorem detach_eq {r : ReaderId} (h : step s (.detach r) = some s') :
    s.reader r = .idle ∧ s' = s.setReader r .leaveLoadEntered := by
  simp only [step] at h
  split at h
  · next hpc =>
    cases h
    exact ⟨hpc, rfl⟩
  · cases h

theorem setReader_frame (r : ReaderId) (pc : ReaderPc) : ReaderFrame r s (s.setReader r pc) :=
  ⟨rfl, rfl, rfl, rfl, rfl, rfl, rfl, fun _ hq => ⟨Function.update_of_ne hq _ _, rfl, rfl, rfl,
    rfl⟩⟩

end Frame

/-! ## What is true in every run -/

section Inv
variable {W : ℕ} {β : Type} {s s' : State W β}

/-- What a writer knows of the descriptor it read. -/
def WriterFacts : WriterPc → Prop
  | .findSkip _ d _ | .findSkipStore _ d _ _ | .findSkipCas _ d =>
      skipped d = true ∨ ∃ r, readerBit r d = true
  | .findClaimCas _ d =>
      writerOwned d = false ∧ skipped d = false ∧ ∀ r, readerBit r d = false
  | _ => True

/-- What a reader knows of its own record and of the descriptor it read. -/
def ReaderFacts (s : State W β) (r : ReaderId) : Prop :=
  match s.reader r with
  | .advRead prev _ | .nextStoreRhead prev _ => prev = s.rhead r
  | .advCas prev _ d => prev = s.rhead r ∧ writerOwned d = false
  | .nextLoadEntered _ rhead | .relConsumed rhead | .nextStoreEntered rhead => rhead = s.rhead r
  | .relRead _ rhead | .relCas _ rhead _ | .nextReturn rhead =>
      rhead = s.rhead r ∧ s.entered r = true
  | .leaveLoadRhead => s.entered r = true
  | .leaveRead prev | .leaveCas prev _ => prev = s.rhead r ∧ s.entered r = true
  | _ => True

/-- The pages a reader has; in `kdata_next_generic` also the one it is about to give back. -/
def bitPages (s : State W β) (r : ReaderId) : List ℕ :=
  match s.reader r with
  | .detached | .enterLoadWhead | .enterStoreRhead _ | .enterStoreSkips | .enterStoreEntered
  | .leaveConsumed => []
  | .nextStoreRhead prev rhead | .nextLoadEntered prev rhead =>
      if s.entered r then [prev, rhead] else [rhead]
  | .relRead prev rhead | .relCas prev rhead _ => [prev, rhead]
  | .relConsumed rhead | .nextStoreEntered rhead | .nextReturn rhead => [rhead]
  | _ => if s.entered r then [s.rhead r] else []

structure DescInv (s : State W β) : Prop where
  /-- No page is with a writer and a reader at once. -/
  apart : ∀ p r, writerOwned (s.desc p) = true → readerBit r (s.desc p) = false
  /-- A mark is only on a page some reader has. -/
  marked : ∀ p, skipped (s.desc p) = true → ∃ r, readerBit r (s.desc p) = true
  writers : ∀ w, WriterFacts (s.writer w).pc
  readers : ∀ r, ReaderFacts s r
  bits : ∀ r p, readerBit r (s.desc p) = true → p ∈ bitPages s r

/-- What `kdata_find_write_loc` does with the descriptor it read. -/
theorem findTest_cases (p : ℕ) (d : Desc) :
    (findTest p d = .findSkip p d 0 ∧ (skipped d = true ∨ ∃ r, readerBit r d = true)) ∨
    (findTest p d = .findRead (kdataNext p) ∧ writerOwned d = true) ∨
    (findTest p d = .findClaimCas p d ∧
      writerOwned d = false ∧ skipped d = false ∧ ∀ r, readerBit r d = false) := by
  unfold findTest
  split
  · next h =>
    rw [Ne, and_readerOwned, Ne, and_skipped] at h
    refine .inl ⟨rfl, ?_⟩
    rcases h with h | h
    · right
      simpa using h
    · left
      simpa using h
  · next h =>
    rw [not_or, not_not, not_not, and_readerOwned, and_skipped] at h
    split
    · next hw =>
      rw [Ne, and_writerOwned] at hw
      exact .inr (.inl ⟨rfl, by simpa using hw⟩)
    · next hw =>
      rw [not_not, and_writerOwned] at hw
      exact .inr (.inr ⟨rfl, hw, h.2, h.1⟩)

theorem findTest_facts (p : ℕ) (d : Desc) : WriterFacts (findTest p d) := by
  obtain ⟨he, h⟩ | ⟨he, _⟩ | ⟨he, h⟩ := findTest_cases p d
  · rw [he]
    exact h
  · rw [he]
    trivial
  · rw [he]
    exact h

theorem skipNext_cases (p : ℕ) (d : Desc) (id : ReaderId) :
    (∃ id', skipNext p d id = .findSkip p d id') ∨ skipNext p d id = .findSkipCas p d := by
  unfold skipNext
  split
  · exact .inl ⟨_, rfl⟩
  · exact .inr rfl

theorem skipNext_facts {p : ℕ} {d : Desc} (id : ReaderId)
    (h : skipped d = true ∨ ∃ r, readerBit r d = true) : WriterFacts (skipNext p d id) := by
  obtain ⟨id', he⟩ | he := skipNext_cases p d id
  · rw [he]
    exact h
  · rw [he]
    exact h

theorem writerStep_facts {w : Fin W} (hf : WriterFacts (s.writer w).pc)
    (h : writerStep s w = some s') : WriterFacts (s'.writer w).pc := by
  cases hpc : (s.writer w).pc
  all_goals simp only [writerStep, hpc] at h
  all_goals try split at h
  all_goals cases h
  all_goals simp only [State.setWriter, Function.update_self]
  all_goals rw [hpc] at hf
  case findRead => exact findTest_facts _ _
  case findSkip.isTrue => exact hf
  case findSkip.isFalse => exact skipNext_facts _ hf
  case findSkipStore => exact skipNext_facts _ hf
  all_goals trivial

theorem ReaderFacts.frame {r : ReaderId} (h : ReaderFacts s r) (hpc : s'.reader r = s.reader r)
    (hrhead : s'.rhead r = s.rhead r) (hentered : s'.entered r = s.entered r) :
    ReaderFacts s' r := by
  unfold ReaderFacts at h ⊢
  rw [hpc, hrhead, hentered]
  exact h

theorem bitPages_frame {r : ReaderId} (hpc : s'.reader r = s.reader r)
    (hrhead : s'.rhead r = s.rhead r) (hentered : s'.entered r = s.entered r) :
    bitPages s' r = bitPages s r := by
  unfold bitPages
  rw [hpc, hrhead, hentered]

theorem readerStep_facts {r : ReaderId} (hf : ReaderFacts s r) (h : readerStep s r = some s') :
    ReaderFacts s' r := by
  cases hpc : s.reader r
  all_goals simp only [ReaderFacts, hpc] at hf
  all_goals simp only [readerStep, hpc] at h
  all_goals try split at h
  all_goals cases h
  case advRead.isTrue hw =>
    rw [and_writerOwned] at hw
    simp [ReaderFacts, State.setReader, hf, hw]
  all_goals simp_all [ReaderFacts, State.setReader, State.setDesc]

/-- The two facts about a descriptor word by itself. -/
def DescOk (d : Desc) : Prop :=
  (∀ r, writerOwned d = true → readerBit r d = false) ∧
    (skipped d = true → ∃ r, readerBit r d = true)

theorem descOk_update {p : ℕ} {d : Desc} (h : ∀ q, DescOk (s.desc q)) (hd : DescOk d) (q : ℕ) :
    DescOk (Function.update s.desc p d q) := by
  by_cases hq : q = p
  · subst hq
    rwa [Function.update_self]
  · rw [Function.update_of_ne hq]
    exact h q

theorem DescInv.descOk (h : DescInv s) (p : ℕ) : DescOk (s.desc p) := ⟨h.apart p, h.marked p⟩

theorem WriterChange.descOk {w : Fin W} (h : WriterChange w s s') (hi : DescInv s) (q : ℕ) :
    DescOk (s'.desc q) := by
  have hw := hi.writers w
  cases h with
  | same h =>
    rw [h]
    exact hi.descOk q
  | skip p hpc h =>
    rw [h]
    rw [hpc] at hw
    refine descOk_update hi.descOk ⟨?_, fun _ => ?_⟩ q
    · intro r
      simpa using hi.apart p r
    · simp only [readerBit_skip]
      rcases hw with hw | hw
      · exact hi.marked p hw
      · exact hw
  | take p hpc h =>
    rw [h]
    rw [hpc] at hw
    obtain ⟨_, hs, hr⟩ := hw
    refine descOk_update hi.descOk ⟨fun r _ => ?_, fun hs' => ?_⟩ q
    · simpa using hr r
    · rw [skipped_take, hs] at hs'
      cases hs'
  | give page p hpc h =>
    rw [h]
    refine descOk_update hi.descOk ⟨fun r ho => ?_, fun hs' => ?_⟩ q
    · simp at ho
    · simpa using hi.marked p (by simpa using hs')

theorem ReaderChange.descOk {r : ReaderId} (h : ReaderChange r s s') (hi : DescInv s) (q : ℕ) :
    DescOk (s'.desc q) := by
  have hr := hi.readers r
  cases h with
  | same h =>
    rw [h]
    exact hi.descOk q
  | claim prev p hpc h =>
    rw [h]
    simp only [ReaderFacts, hpc] at hr
    refine descOk_update hi.descOk ⟨fun r' ho => ?_, fun _ => ⟨r, by simp⟩⟩ q
    rw [writerOwned_claim, hr.2] at ho
    cases ho
  | release p hpc h =>
    rw [h]
    refine descOk_update hi.descOk ⟨fun r' ho => ?_, fun hs => ?_⟩ q
    · have := hi.apart p r' (by simpa using ho)
      simp [this]
    · obtain ⟨r', hne, hb⟩ := skipped_release _ _ hs
      exact ⟨r', by simp [hne, hb]⟩

theorem readerStep_bits {r : ReaderId} (hf : ReaderFacts s r)
    (hb : ∀ p, readerBit r (s.desc p) = true → p ∈ bitPages s r)
    (h : readerStep s r = some s') (p : ℕ) (hp : readerBit r (s'.desc p) = true) :
    p ∈ bitPages s' r := by
  have hbp := hb p
  cases hpc : s.reader r
  all_goals simp only [ReaderFacts, hpc] at hf
  all_goals simp only [bitPages, hpc] at hbp
  all_goals simp only [readerStep, hpc] at h
  all_goals try split at h
  all_goals cases h
  case advCas.isTrue prev q d hd =>
    by_cases hq : p = q
    · cases he : s.entered r <;> simp [bitPages, State.setReader, State.setDesc, hq, he]
    · simp only [State.setReader, State.setDesc, Function.update_of_ne hq] at hp
      have := hbp hp
      simp_all [bitPages, State.setReader, State.setDesc]
  case relCas.isTrue prev q d hd =>
    by_cases hq : p = prev
    · simp [State.setReader, State.setDesc, hq] at hp
    · simp only [State.setReader, State.setDesc, Function.update_of_ne hq] at hp
      simpa [bitPages, State.setReader, State.setDesc, hq] using hbp hp
  case leaveCas.isTrue prev d hd =>
    by_cases hq : p = prev
    · simp [State.setReader, State.setDesc, hq] at hp
    · simp only [State.setReader, State.setDesc, Function.update_of_ne hq] at hp
      simp [hf.2, ← hf.1, hq, hp] at hbp
  all_goals simp_all [bitPages, State.setReader]

theorem descInv_writer {w : Fin W} (hi : DescInv s) (hf : WriterFrame w s s')
    (hc : WriterChange w s s') (hw : WriterFacts (s'.writer w).pc) : DescInv s' where
  apart p := (hc.descOk hi p).1
  marked p := (hc.descOk hi p).2
  writers u := by
    by_cases hu : u = w
    · subst hu
      exact hw
    · rw [hf.others u hu]
      exact hi.writers u
  readers r := (hi.readers r).frame (by rw [hf.reader]) (by rw [hf.rhead]) (by rw [hf.entered])
  bits r p hp := by
    have he : bitPages s' r = bitPages s r :=
      bitPages_frame (by rw [hf.reader]) (by rw [hf.rhead]) (by rw [hf.entered])
    rw [hc.readerBit_eq] at hp
    rw [he]
    exact hi.bits r p hp

theorem descInv_reader {r : ReaderId} (hi : DescInv s) (hf : ReaderFrame r s s')
    (hc : ReaderChange r s s') (hr : ReaderFacts s' r)
    (hb : ∀ p, readerBit r (s'.desc p) = true → p ∈ bitPages s' r) : DescInv s' where
  apart p := (hc.descOk hi p).1
  marked p := (hc.descOk hi p).2
  writers u := by
    rw [hf.writer]
    exact hi.writers u
  readers q := by
    by_cases hq : q = r
    · subst hq
      exact hr
    · obtain ⟨h1, h2, h3, _⟩ := hf.others q hq
      exact (hi.readers q).frame h1 h2 h3
  bits q p hp := by
    by_cases hq : q = r
    · subst hq
      exact hb p hp
    · obtain ⟨h1, h2, h3, _⟩ := hf.others q hq
      rw [bitPages_frame h1 h2 h3]
      rw [hc.readerBit_eq hq] at hp
      exact hi.bits q p hp

theorem descInv_step {a : Act W β} (hi : DescInv s) (h : step s a = some s') : DescInv s' := by
  cases a with
  | start w m =>
    obtain ⟨_, rfl⟩ := start_eq h
    refine descInv_writer hi (start_frame w _) (.same rfl) ?_
    simp [WriterFacts]
  | writer w =>
    exact descInv_writer hi (writerStep_frame h) (writerStep_desc h)
      (writerStep_facts (hi.writers w) h)
  | attach r =>
    obtain ⟨hpc, rfl⟩ := attach_eq h
    refine descInv_reader hi (setReader_frame r _) (.same rfl) ?_ ?_
    · simp [ReaderFacts, State.setReader]
    · intro p hp
      have := hi.bits r p hp
      simp [bitPages, hpc] at this
  | detach r =>
    obtain ⟨hpc, rfl⟩ := detach_eq h
    refine descInv_reader hi (setReader_frame r _) (.same rfl) ?_ ?_
    · simp [ReaderFacts, State.setReader]
    · intro p hp
      have hb := hi.bits r p hp
      unfold bitPages at hb ⊢
      simp only [hpc, State.setReader, Function.update_self] at hb ⊢
      exact hb
  | reader r =>
    exact descInv_reader hi (readerStep_frame h) (readerStep_desc h)
      (readerStep_facts (hi.readers r) h) (readerStep_bits (hi.readers r) (hi.bits r) h)

theorem descInv_init [Inhabited β] : DescInv (kdataInitControl : State W β) where
  apart p r h := by simp [kdataInitControl, readerBit]
  marked p h := by simp [kdataInitControl, skipped] at h
  writers w := trivial
  readers r := trivial
  bits r p h := by simp [kdataInitControl, readerBit] at h

theorem descInv_run [Inhabited β] {ok : State W β → Act W β → Prop}
    (h : ReachIf (ring W β) ok s) : DescInv s :=
  h.invariant (I := DescInv) descInv_init fun _ _ _ hi _ hs => descInv_step hi hs

theorem bitPages_length (s : State W β) (r : ReaderId) : (bitPages s r).length ≤ 2 := by
  unfold bitPages
  split
  all_goals try split
  all_goals simp

/-! ## Runs in which no reader comes round to its own page -/

/-- The step is not one in which `kdata_advance_rhead` takes, for a reader that has entered, the
page that `kdata_next_generic` is about to give back. -/
def noWrap (s : State W β) : Act W β → Bool
  | .reader r =>
      match s.reader r with
      | .advCas prev rhead desc => !(s.entered r && s.desc rhead == desc && rhead == prev)
      | _ => true
  | _ => true

/-- The reader's bit is on its pages, and these are distinct. -/
def Held (s : State W β) (r : ReaderId) : Prop :=
  (∀ p ∈ bitPages s r, readerBit r (s.desc p) = true) ∧ (bitPages s r).Nodup

theorem Held.frame {r : ReaderId} (h : Held s r) (hpc : s'.reader r = s.reader r)
    (hrhead : s'.rhead r = s.rhead r) (hentered : s'.entered r = s.entered r)
    (hbit : ∀ p, readerBit r (s'.desc p) = readerBit r (s.desc p)) : Held s' r := by
  unfold Held
  rw [bitPages_frame hpc hrhead hentered]
  refine ⟨fun p hp => ?_, h.2⟩
  rw [hbit p]
  exact h.1 p hp

theorem readerStep_held {r : ReaderId} (hf : ReaderFacts s r) (hh : Held s r)
    (hok : noWrap s (.reader r) = true) (h : readerStep s r = some s') : Held s' r := by
  unfold Held at hh ⊢
  cases hpc : s.reader r
  all_goals simp only [ReaderFacts, hpc] at hf
  all_goals simp only [bitPages, hpc] at hh
  all_goals simp only [noWrap, hpc] at hok
  all_goals simp only [readerStep, hpc] at h
  all_goals try split at h
  all_goals cases h
  case advCas.isTrue prev q d hd =>
    subst hd
    cases he : s.entered r with
    | false => simp [bitPages, State.setReader, State.setDesc, he]
    | true =>
      obtain ⟨rfl, _⟩ := hf
      have hne : s.rhead r ≠ q := by
        intro heq
        simp [he, heq] at hok
      have hbit : readerBit r (s.desc (s.rhead r)) = true := by simpa [he] using hh.1
      simp [bitPages, State.setReader, State.setDesc, he, hne, hbit]
  case relCas.isTrue prev q d hd =>
    obtain ⟨hb, hn⟩ := hh
    have hne : q ≠ prev := by
      intro heq
      simp [heq] at hn
    have hbit : readerBit r (s.desc q) = true := hb q (by simp)
    simp [bitPages, State.setReader, State.setDesc, hne, hbit]
  all_goals cases he : s.entered r
  all_goals simp_all [bitPages, State.setReader]

theorem held_step {a : Act W β} (hi : DescInv s) (hh : ∀ r, Held s r) (hok : noWrap s a = true)
    (h : step s a = some s') (r : ReaderId) : Held s' r := by
  cases a with
  | start w m =>
    obtain ⟨_, rfl⟩ := start_eq h
    exact hh r
  | writer w =>
    have hf := writerStep_frame h
    exact (hh r).frame (by rw [hf.reader]) (by rw [hf.rhead]) (by rw [hf.entered])
      ((writerStep_desc h).readerBit_eq r)
  | attach q | detach q =>
    first
      | obtain ⟨hpc, rfl⟩ := attach_eq h
      | obtain ⟨hpc, rfl⟩ := detach_eq h
    by_cases hr : r = q
    · subst hr
      have := hh r
      unfold Held bitPages at this ⊢
      simp only [hpc, State.setReader, Function.update_self] at this ⊢
      exact this
    · exact (hh r).frame (Function.update_of_ne hr _ _) rfl rfl fun _ => rfl
  | reader q =>
    by_cases hr : r = q
    · subst hr
      exact readerStep_held (hi.readers r) (hh r) hok h
    · obtain ⟨h1, h2, h3, _⟩ := (readerStep_frame h).others r hr
      exact (hh r).frame h1 h2 h3 ((readerStep_desc h).readerBit_eq hr)

theorem held_run [Inhabited β] {ok : State W β → Act W β → Prop}
    (hok : ∀ s a, ok s a → noWrap s a = true) (h : ReachIf (ring W β) ok s) (r : ReaderId) :
    Held s r := by
  have hboth : DescInv s ∧ ∀ r, Held s r := by
    refine h.invariant (I := fun s => DescInv s ∧ ∀ r, Held s r) ⟨descInv_init, ?_⟩ ?_
    · intro r
      simp [Held, bitPages, ring, kdataInitControl]
    · intro t a t' ht hta hs
      exact ⟨descInv_step ht.1 hs, held_step ht.1 ht.2 (hok t a hta) hs⟩
  exact hboth.2 r

end Inv

end Netp.Kring.Data
