import Netp.Kring.DataInv

/-! # The counters of the readers

`kdata_prep_enter` sets the `consumed` of a reader to what is produced, and `kdata_reader_release` adds
one to `control->reader->consumed`, which is the counter of reader 0 whoever releases a page. The ring
runs as it is, with a history of what the counters are to be beside it.
-/

namespace Netp.Kring.Data
open Netp.Lib
set_option autoImplicit false

/-! ## The history -/

/-- What the counters of the readers are to count. -/
structure Counts where
  /-- The reader has entered. -/
  inside : ReaderId → Bool
  /-- `head->produced`, as the reader has loaded it in `kdata_prep_enter`. -/
  atEntry : ReaderId → ℕ
  /-- The calls of `kdata_reader_release` that the reader has completed since it entered. -/
  released : ReaderId → ℕ

structure Counted (W : ℕ) (β : Type) where
  ring : State W β
  counts : Counts

section Runs
variable {W : ℕ} {β : Type}

/-- A reader at the end of `kdata_reader_release`. -/
def ReaderPc.releasing : ReaderPc → Bool
  | .relConsumed _ | .leaveConsumed => true
  | _ => false

/-- The step of a reader in the history. -/
def Counts.readerStep (c : Counts) (s : State W β) (r : ReaderId) : Counts :=
  match s.reader r with
  | .enterLoadProduced => { c with atEntry := Function.update c.atEntry r s.produced }
  | .enterStoreConsumed _ =>
      { c with
        inside := Function.update c.inside r true
        released := Function.update c.released r 0 }
  | .relConsumed _ | .leaveConsumed =>
      { c with released := Function.update c.released r (c.released r + 1) }
  | _ => c

/-- The history behind a step, with `s` before it. A reader that enters is outside until it is done. -/
def Counts.step (c : Counts) (s : State W β) : Act W β → Counts
  | .attach r => { c with inside := Function.update c.inside r false }
  | .reader r => c.readerStep s r
  | _ => c

/-- The runs of the ring with the history. -/
def counted (W : ℕ) (β : Type) [Inhabited β] : System (Counted W β) (Act W β) where
  init := ⟨kdataInitControl, ⟨fun _ => false, fun _ => 0, fun _ => 0⟩⟩
  step s a := (step s.ring a).map fun t => ⟨t, s.counts.step s.ring a⟩

/-- The counter of a reader that has entered is what was produced at its entry and what it has released
since. -/
def Counted.Accounted (s : Counted W β) : Prop :=
  ∀ r, s.counts.inside r = true → s.ring.consumed r = s.counts.atEntry r + s.counts.released r

/-- Pages are released by reader 0. -/
def OnlyFirstReleases (s : Counted W β) : Act W β → Prop
  | .reader r => (s.ring.reader r).releasing = true → r = 0
  | _ => True

/-! ## One step -/

/-- The parts of a reader's life that the counters know. -/
inductive Phase
  | out | entering
  | storing (produced : ℕ)
  | within | releasing
  deriving DecidableEq

def ReaderPc.phase : ReaderPc → Phase
  | .detached => .out
  | .enterLoadWhead | .enterStoreRhead _ | .enterStoreSkips | .enterStoreEntered
  | .enterLoadProduced => .entering
  | .enterStoreConsumed produced => .storing produced
  | .relConsumed _ | .leaveConsumed => .releasing
  | _ => .within

variable {s t : State W β}

theorem writerStep_consumed {w : Fin W} (h : writerStep s w = some t) : t.consumed = s.consumed := by
  cases hpc : (s.writer w).pc
  all_goals simp only [writerStep, hpc] at h
  all_goals try split at h
  all_goals cases h
  all_goals rfl

/-- What the step of a reader does to its counter and to its phase. -/
inductive CounterChange (r : ReaderId) (s t : State W β) (c : Counts) : Prop
  | same (hc : t.consumed = s.consumed) (hcounts : c.readerStep s r = c)
      (hold : (s.reader r).phase = .entering ∨ (s.reader r).phase = .within)
      (hnew : (t.reader r).phase = (s.reader r).phase ∨
        (s.reader r).phase = .within ∧
          ((t.reader r).phase = .releasing ∨ (t.reader r).phase = .out))
  | load (hc : t.consumed = s.consumed) (hold : (s.reader r).phase = .entering)
      (hcounts : c.readerStep s r = { c with atEntry := Function.update c.atEntry r s.produced })
      (hnew : (t.reader r).phase = .storing s.produced)
  | store (produced : ℕ) (hold : (s.reader r).phase = .storing produced)
      (hc : t.consumed = Function.update s.consumed r produced)
      (hcounts : c.readerStep s r = { c with
        inside := Function.update c.inside r true
        released := Function.update c.released r 0 })
      (hnew : (t.reader r).phase = .within)
  | release (hold : (s.reader r).phase = .releasing)
      (hc : t.consumed = Function.update s.consumed 0 (s.consumed 0 + 1))
      (hcounts : c.readerStep s r =
        { c with released := Function.update c.released r (c.released r + 1) })
      (hnew : (t.reader r).phase = .within ∨ (t.reader r).phase = .out)

theorem readerStep_counter {r : ReaderId} (c : Counts) (h : readerStep s r = some t) :
    CounterChange r s t c := by
  cases hpc : s.reader r
  all_goals simp only [readerStep, hpc] at h
  all_goals try split at h
  all_goals cases h
  case enterLoadProduced =>
    exact .load rfl (by rw [hpc]; rfl) (by rw [Counts.readerStep, hpc])
      (by simp [State.setReader, ReaderPc.phase])
  case enterStoreConsumed produced =>
    exact .store produced (by rw [hpc]; rfl) rfl (by rw [Counts.readerStep, hpc])
      (by simp [State.setReader, ReaderPc.phase])
  case relConsumed =>
    exact .release (by rw [hpc]; rfl) rfl (by rw [Counts.readerStep, hpc])
      (by simp [State.setReader, ReaderPc.phase])
  case leaveConsumed =>
    exact .release (by rw [hpc]; rfl) rfl (by rw [Counts.readerStep, hpc])
      (by simp [State.setReader, ReaderPc.phase])
  all_goals
    exact .same rfl (by rw [Counts.readerStep, hpc]) (by simp [hpc, ReaderPc.phase])
      (by simp [hpc, State.setReader, State.setDesc, ReaderPc.phase])

/-! ## Runs -/

/-- What the history has of a reader goes with where the reader is. -/
structure Placed (pc : ReaderPc) (c : Counts) (r : ReaderId) : Prop where
  entering : pc.phase = .entering → c.inside r = false
  storing : ∀ produced, pc.phase = .storing produced → c.inside r = false ∧ c.atEntry r = produced
  within : pc.phase = .within → c.inside r = true
  releasing : pc.phase = .releasing → c.inside r = true

/-- The counts of one reader. -/
def Counts.SameAt (c c' : Counts) (r : ReaderId) : Prop :=
  c'.inside r = c.inside r ∧ c'.atEntry r = c.atEntry r ∧ c'.released r = c.released r

theorem Placed.congr {pc : ReaderPc} {c c' : Counts} {r : ReaderId} (h : Placed pc c r)
    (hc : c.SameAt c' r) : Placed pc c' r := by
  obtain ⟨hin, hat, -⟩ := hc
  exact ⟨fun hp => hin.trans (h.entering hp),
    fun p hp => ⟨hin.trans (h.storing p hp).1, hat.trans (h.storing p hp).2⟩,
    fun hp => hin.trans (h.within hp), fun hp => hin.trans (h.releasing hp)⟩

theorem readerStep_sameAt (c : Counts) (s : State W β) {r q : ReaderId} (hq : q ≠ r) :
    c.SameAt (c.readerStep s r) q := by
  unfold Counts.readerStep
  cases s.reader r <;> simp [Counts.SameAt, Function.update_of_ne hq]

theorem counter_placed {r : ReaderId} {c : Counts} (h : CounterChange r s t c)
    (hp : Placed (s.reader r) c r) : Placed (t.reader r) (c.readerStep s r) r := by
  cases h with
  | same hc hcounts hold hnew =>
    rw [hcounts]
    obtain hsame | ⟨hwithin, hnew | hnew⟩ := hnew
    · exact ⟨fun h => hp.entering (hsame ▸ h), fun p h => hp.storing p (hsame ▸ h),
        fun h => hp.within (hsame ▸ h), fun h => hp.releasing (hsame ▸ h)⟩
    · have hin := hp.within hwithin
      exact ⟨by simp [hnew], by simp [hnew], fun _ => hin, fun _ => hin⟩
    · have hin := hp.within hwithin
      exact ⟨by simp [hnew], by simp [hnew], fun _ => hin, fun _ => hin⟩
  | load hc hold hcounts hnew =>
    have hin := hp.entering hold
    rw [hcounts]
    refine ⟨by simp [hnew], fun p h => ?_, by simp [hnew], by simp [hnew]⟩
    rw [hnew, Phase.storing.injEq] at h
    subst h
    exact ⟨hin, Function.update_self _ _ _⟩
  | store produced hold hc hcounts hnew =>
    rw [hcounts]
    exact ⟨by simp [hnew], by simp [hnew], fun _ => Function.update_self _ _ _, by simp [hnew]⟩
  | release hold hc hcounts hnew =>
    have hin := hp.releasing hold
    rw [hcounts]
    obtain hnew | hnew := hnew
    · exact ⟨by simp [hnew], by simp [hnew], fun _ => hin, by simp [hnew]⟩
    · exact ⟨by simp [hnew], by simp [hnew], fun _ => hin, by simp [hnew]⟩

theorem step_placed {a : Act W β} {c : Counts} (h : step s a = some t)
    (hp : ∀ r, Placed (s.reader r) c r) (r : ReaderId) : Placed (t.reader r) (c.step s a) r := by
  cases a with
  | start w data =>
    obtain ⟨-, rfl⟩ := start_eq h
    exact hp r
  | writer w =>
    rw [(writerStep_frame h).reader]
    exact hp r
  | attach q =>
    obtain ⟨-, rfl⟩ := attach_eq h
    by_cases hr : r = q
    · subst hr
      have hin : (c.step s (.attach r)).inside r = false := Function.update_self _ _ _
      have hpc : (s.setReader r .enterLoadWhead).reader r = .enterLoadWhead := Function.update_self _ _ _
      rw [hpc]
      exact ⟨fun _ => hin, by simp [ReaderPc.phase], by simp [ReaderPc.phase], by simp [ReaderPc.phase]⟩
    · rw [((setReader_frame q .enterLoadWhead).others r hr).1]
      exact (hp r).congr ⟨Function.update_of_ne hr _ _, rfl, rfl⟩
  | detach q =>
    obtain ⟨hidle, rfl⟩ := detach_eq h
    by_cases hr : r = q
    · subst hr
      have hin := (hp r).within (by rw [hidle]; rfl)
      have hpc : (s.setReader r .leaveLoadEntered).reader r = .leaveLoadEntered :=
        Function.update_self _ _ _
      rw [hpc]
      exact ⟨by simp [ReaderPc.phase], by simp [ReaderPc.phase], fun _ => hin, fun _ => hin⟩
    · rw [((setReader_frame q .leaveLoadEntered).others r hr).1]
      exact hp r
  | reader q =>
    by_cases hr : r = q
    · subst hr
      exact counter_placed (readerStep_counter c h) (hp r)
    · rw [((readerStep_frame h).others r hr).1]
      exact (hp r).congr (readerStep_sameAt c s hr)

theorem releasing_iff (pc : ReaderPc) : pc.releasing = true ↔ pc.phase = .releasing := by
  cases pc <;> simp [ReaderPc.releasing, ReaderPc.phase]

/-- A step that releases no page, or one of reader 0, keeps the counters right, and another one makes
that of its own reader wrong. -/
theorem counter_accounted {r : ReaderId} {c : Counts} (h : CounterChange r s t c)
    (hp : Placed (s.reader r) c r) (ha : Counted.Accounted ⟨s, c⟩) :
    Counted.Accounted ⟨t, c.readerStep s r⟩ ↔ OnlyFirstReleases ⟨s, c⟩ (.reader r) := by
  have hquiet : (s.reader r).phase ≠ .releasing → OnlyFirstReleases ⟨s, c⟩ (.reader r) :=
    fun hno hrel => absurd ((releasing_iff _).mp hrel) hno
  cases h with
  | same hc hcounts hold hnew =>
    refine iff_of_true ?_ (hquiet ?_)
    · intro q hq
      rw [hcounts] at hq ⊢
      rw [hc]
      exact ha q hq
    · obtain hold | hold := hold <;> simp [hold]
  | load hc hold hcounts hnew =>
    refine iff_of_true ?_ (hquiet (by simp [hold]))
    intro q hq
    rw [hcounts] at hq ⊢
    have hne : q ≠ r := by
      rintro rfl
      exact absurd (hq.symm.trans (hp.entering hold)) (by decide)
    simp only [hc, Function.update_of_ne hne]
    exact ha q hq
  | store produced hold hc hcounts hnew =>
    refine iff_of_true ?_ (hquiet (by simp [hold]))
    intro q hq
    rw [hcounts] at hq ⊢
    by_cases hqr : q = r
    · subst hqr
      simp only [hc, Function.update_self, Nat.add_zero]
      exact (hp.storing produced hold).2.symm
    · simp only [hc, Function.update_of_ne hqr] at hq ⊢
      exact ha q hq
  | release hold hc hcounts hnew =>
    have hin := hp.releasing hold
    constructor
    · intro hafter _
      by_contra hne
      have hbefore := ha r hin
      have hlater := hafter r (by rw [hcounts]; exact hin)
      rw [hcounts] at hlater
      simp only [hc, Function.update_of_ne hne, Function.update_self] at hlater hbefore
      omega
    · intro hfirst q hq
      obtain rfl : r = 0 := hfirst ((releasing_iff _).mpr hold)
      rw [hcounts] at hq ⊢
      have hbefore := ha q hq
      by_cases hq0 : q = 0
      · subst hq0
        simp only [hc, Function.update_self] at hbefore ⊢
        omega
      · simp only [hc, Function.update_of_ne hq0] at hbefore ⊢
        exact hbefore

theorem step_accounted {a : Act W β} {c : Counts} (h : step s a = some t)
    (hp : ∀ r, Placed (s.reader r) c r) (ha : Counted.Accounted ⟨s, c⟩) :
    Counted.Accounted ⟨t, c.step s a⟩ ↔ OnlyFirstReleases ⟨s, c⟩ a := by
  cases a with
  | start w data =>
    obtain ⟨-, rfl⟩ := start_eq h
    exact iff_of_true ha trivial
  | writer w =>
    refine iff_of_true (fun q hq => ?_) trivial
    have hsame := ha q hq
    simp only [writerStep_consumed h]
    exact hsame
  | attach r =>
    obtain ⟨-, rfl⟩ := attach_eq h
    refine iff_of_true (fun q hq => ?_) trivial
    by_cases hqr : q = r
    · subst hqr
      exact absurd hq (by simp [Counts.step])
    · have hbefore : Function.update c.inside r false q = true := hq
      rw [Function.update_of_ne hqr] at hbefore
      exact ha q hbefore
  | detach r =>
    obtain ⟨-, rfl⟩ := detach_eq h
    exact iff_of_true ha trivial
  | reader r => exact counter_accounted (readerStep_counter c h) (hp r) ha

section Ring
variable [Inhabited β] {s t : Counted W β}

theorem counted_step {a : Act W β} (h : (counted W β).step s a = some t) :
    step s.ring a = some t.ring ∧ t.counts = s.counts.step s.ring a := by
  obtain ⟨u, hu, rfl⟩ := Option.map_eq_some_iff.mp h
  exact ⟨hu, rfl⟩

theorem counted_placed (h : Reach (counted W β) s) (r : ReaderId) :
    Placed (s.ring.reader r) s.counts r := by
  revert r
  refine h.invariant (I := fun s => ∀ r, Placed (s.ring.reader r) s.counts r) ?_ ?_
  · intro r
    exact ⟨nofun, nofun, nofun, nofun⟩
  · intro s a t hs _ hstep r
    obtain ⟨hring, hcounts⟩ := counted_step hstep
    rw [hcounts]
    exact step_placed hring hs r

/-- Runs in which only reader 0 releases pages have the counters right in every state, and they are all
the runs that have. -/
theorem consumed_accounted (s : Counted W β) :
    (ReachIf (counted W β) OnlyFirstReleases s → s.Accounted) ∧
      (ReachIf (counted W β) OnlyFirstReleases s ↔
        ReachIf (counted W β) (fun s a => ∀ t, (counted W β).step s a = some t → t.Accounted) s) := by
  have hinit : (counted W β).init.Accounted := nofun
  have hstep : ∀ (s : Counted W β) (a : Act W β) (t : Counted W β), Reach (counted W β) s → s.Accounted →
      (counted W β).step s a = some t → (t.Accounted ↔ OnlyFirstReleases s a) := by
    intro s a t hr ha h
    obtain ⟨hring, hcounts⟩ := counted_step h
    obtain ⟨u, c⟩ := t
    cases hcounts
    exact step_accounted hring (counted_placed hr) ha
  have hright : ∀ {s : Counted W β}, ReachIf (counted W β) OnlyFirstReleases s → s.Accounted := by
    intro s h
    induction h with
    | init => exact hinit
    | next hr hok hs ih => exact (hstep _ _ _ hr.reach ih hs).mpr hok
  refine ⟨hright, ?_, ?_⟩
  · intro h
    refine h.imp fun s a hr _ hok t ht => ?_
    exact (hstep s a t hr.reach (hright hr) ht).mpr hok
  · intro h
    have hboth : s.Accounted ∧ ReachIf (counted W β) OnlyFirstReleases s := by
      induction h with
      | init => exact ⟨hinit, .init⟩
      | next hr hok hs ih =>
        have hafter := hok _ hs
        exact ⟨hafter, .next ih.2 ((hstep _ _ _ hr.reach ih.1 hs).mp hafter) hs⟩
    exact hboth.2

end Ring

end Runs

/-- Reader 1 enters, a message is written, and reader 1 reads it and leaves. -/
def secondReader : List (Act 1 ℕ) :=
  .attach 1 :: List.replicate 6 (.reader 1) ++ .start 0 5 :: List.replicate 11 (.writer 0) ++
    List.replicate 9 (.reader 1) ++ .detach 1 :: List.replicate 5 (.reader 1)

/-- The one page that reader 1 releases is counted for reader 0. -/
theorem consumed_second_reader : ¬ ∀ s, Reach (counted 1 ℕ) s → s.Accounted := by
  intro h
  have hrun : (run (counted 1 ℕ) (counted 1 ℕ).init secondReader).map
      (fun s => (s.counts.inside 1, s.ring.consumed 1, s.counts.atEntry 1, s.counts.released 1)) =
      some (true, 0, 0, 1) := rfl
  obtain ⟨s, hs, hfields⟩ := Option.map_eq_some_iff.mp hrun
  simp only [Prod.mk.injEq] at hfields
  obtain ⟨hin, hconsumed, hentry, hreleased⟩ := hfields
  have hcounted := h s (Reach.run ReachIf.init hs) 1 hin
  rw [hconsumed, hentry, hreleased] at hcounted
  cases hcounted

end Netp.Kring.Data
