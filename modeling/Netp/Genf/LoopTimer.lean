import Netp.Lib.Run
import Mathlib.Data.Int.Notation
import Mathlib.Tactic.Common

/-! # The timer of the loops

`Thread::pselectLoop` and `Thread::signalLoop` (`genf/select.cc`), as far as the timer goes: the two keep
the time that is left in a variable, and set it behind every wait from the time since the last run of the
timer. `signalLoop` does so behind an interrupted wait too, `pselectLoop` goes on to the next wait.

The outcomes of the waits and the clock are arbitrary, but for the clock not going back. What else is done
in a round, and whether it ends the loop, is one flag of its event.
-/

namespace Netp.Genf
open Netp.Lib
set_option autoImplicit false

/-! ## Times -/

/-- `struct timeval`, with its microseconds in order. -/
@[ext] structure Timeval where
  sec : ℤ
  usec : ℕ
  usec_lt : usec < 1000000
  deriving DecidableEq

namespace Timeval

def toUsec (t : Timeval) : ℤ := t.sec * 1000000 + t.usec

/-- `timersub` -/
def timersub (a b : Timeval) : Timeval :=
  if h : a.usec < b.usec then
    ⟨a.sec - b.sec - 1, a.usec + 1000000 - b.usec, by have := b.usec_lt; omega⟩
  else ⟨a.sec - b.sec, a.usec - b.usec, by have := a.usec_lt; omega⟩

/-- The test of both loops on `left`. -/
def expired (t : Timeval) : Bool := t.sec < 0 ∨ (t.usec = 0 ∧ t.sec = 0)

theorem timersub_toUsec (a b : Timeval) : (timersub a b).toUsec = a.toUsec - b.toUsec := by
  unfold timersub toUsec
  split_ifs with h
  · have hb := b.usec_lt
    have hcast : ((a.usec + 1000000 - b.usec : ℕ) : ℤ) = a.usec + 1000000 - b.usec := by omega
    simp only [hcast]
    omega
  · have hcast : ((a.usec - b.usec : ℕ) : ℤ) = a.usec - b.usec := by omega
    simp only [hcast]
    omega

theorem expired_iff (t : Timeval) : t.expired = true ↔ t.toUsec ≤ 0 := by
  have hlt := t.usec_lt
  rw [expired, toUsec, decide_eq_true_eq]
  omega

theorem toUsec_inj {a b : Timeval} (h : a.toUsec = b.toUsec) : a = b := by
  have ha := a.usec_lt
  have hb := b.usec_lt
  unfold toUsec at h
  ext <;> omega

end Timeval

/-! ## The loops -/

/-- `left` and `last`. -/
structure TimerVars where
  left : Timeval
  last : Timeval
  /-- History: the times at which `handleTimer` has run. -/
  runs : List Timeval

def TimerVars.start (timer start : Timeval) : TimerVars := ⟨timer, start, []⟩

/-- The timer block of both loops. -/
def TimerVars.handle (timer : Timeval) (v : TimerVars) (now : Timeval) : TimerVars :=
  let elapsed := Timeval.timersub now v.last
  let left := Timeval.timersub timer elapsed
  if left.expired then ⟨timer, now, v.runs ++ [now]⟩ else { v with left := left }

/-- What `sigtimedwait` comes to: a signal, or an error. -/
inductive SigResult
  | signal | eagain | eintr | error
  deriving DecidableEq

/-- A round of `signalLoop`. -/
def TimerVars.signalRound (timer : Timeval) (v : TimerVars) (sig : SigResult) (now : Timeval) :
    TimerVars :=
  match sig with
  | .error => v
  | _ => v.handle timer now

/-- What `pselect` comes to: no descriptor, some, or an error. -/
inductive SelectResult
  | timeout | ready | eintr | eagain
  deriving DecidableEq

/-- A round of `pselectLoop`. -/
def TimerVars.pselectRound (timer : Timeval) (v : TimerVars) (result : SelectResult) (now : Timeval) :
    TimerVars :=
  match result with
  | .eintr => v
  | _ => v.handle timer now

/-- The same event for `signalLoop`. -/
def SelectResult.sig : SelectResult → SigResult
  | .timeout | .eagain => .eagain
  | .ready => .signal
  | .eintr => .eintr

/-- A return of `pselect`, the clock behind it, and whether the loop goes on after the round. -/
structure SelectEvent where
  result : SelectResult
  now : Timeval
  loop : Bool

/-- History: a round with what there was when `pselect` was entered. -/
structure SelectRound where
  event : SelectEvent
  left : Timeval
  /-- The clock behind the return before, or at the start. -/
  before : Timeval
  /-- The last run of the timer, or the start. -/
  since : Timeval
  ran : Bool

structure SelectLoop where
  vars : TimerVars
  loop : Bool
  /-- History: the clock behind the last return, and the rounds. -/
  clock : Timeval
  rounds : List SelectRound

/-- The last run of the timer, or the start of the loop. -/
def SelectLoop.since (start : Timeval) (s : SelectLoop) : Timeval := s.vars.runs.getLast?.getD start

def SelectLoop.round (timer start : Timeval) (s : SelectLoop) (e : SelectEvent) : SelectLoop :=
  let vars := s.vars.pselectRound timer e.result e.now
  ⟨vars, e.loop, e.now,
    s.rounds ++ [⟨e, s.vars.left, s.clock, s.since start, vars.runs.length ≠ s.vars.runs.length⟩]⟩

def pselectLoop (timer start : Timeval) : System SelectLoop SelectEvent where
  init := ⟨.start timer start, true, start, []⟩
  step s e :=
    if s.loop ∧ s.clock.toUsec ≤ e.now.toUsec then some (s.round timer start e) else none

/-- `signalLoop` on the same events. -/
def signalLoop (timer start : Timeval) (events : List SelectEvent) : TimerVars :=
  events.foldl (fun v e => v.signalRound timer e.result.sig e.now) (.start timer start)

/-! ## What the timer is to do -/

structure SelectLoop.OnTime (timer start : Timeval) (s : SelectLoop) : Prop where
  /-- Whenever `pselect` was entered, and if it is entered next. -/
  left : ∀ r ∈ s.rounds, r.left.toUsec = timer.toUsec - (r.before.toUsec - r.since.toUsec)
  left_next : s.loop = true →
    s.vars.left.toUsec = timer.toUsec - (s.clock.toUsec - (s.since start).toUsec)
  /-- Whenever the interval was over, the timer has run before the next wait. -/
  due : ∀ r ∈ s.rounds, timer.toUsec ≤ r.event.now.toUsec - r.since.toUsec →
    r.ran = true ∨ r.event.loop = false
  agrees : s.vars.runs = (signalLoop timer start (s.rounds.map SelectRound.event)).runs

/-- An interrupted wait is over before the interval is, and takes no time if another one follows. -/
def SelectLoop.Undisturbed (timer start : Timeval) (s : SelectLoop) (e : SelectEvent) : Prop :=
  e.result = .eintr → e.now.toUsec - (s.since start).toUsec < timer.toUsec ∧
    (e.loop = true → e.now = s.clock)

/-! ## One round -/

section Rounds
variable {timer start now : Timeval} {v : TimerVars} {s t : SelectLoop} {e : SelectEvent}

/-- The timer runs exactly if the interval is over, and otherwise what is left of it is kept. -/
theorem handle_cases (timer : Timeval) (v : TimerVars) (now : Timeval) :
    (timer.toUsec ≤ now.toUsec - v.last.toUsec ∧ v.handle timer now = ⟨timer, now, v.runs ++ [now]⟩) ∨
      (now.toUsec - v.last.toUsec < timer.toUsec ∧ ∃ left : Timeval,
        left.toUsec = timer.toUsec - (now.toUsec - v.last.toUsec) ∧
        v.handle timer now = { v with left := left }) := by
  have hleft : (Timeval.timersub timer (Timeval.timersub now v.last)).toUsec =
      timer.toUsec - (now.toUsec - v.last.toUsec) := by
    rw [Timeval.timersub_toUsec, Timeval.timersub_toUsec]
  by_cases hexp : (Timeval.timersub timer (Timeval.timersub now v.last)).expired = true
  · have hdue := (Timeval.expired_iff _).mp hexp
    rw [hleft] at hdue
    exact .inl ⟨by omega, by rw [TimerVars.handle]; simp only [hexp, if_true]⟩
  · have hdue : ¬ (Timeval.timersub timer (Timeval.timersub now v.last)).toUsec ≤ 0 :=
      fun h => hexp ((Timeval.expired_iff _).mpr h)
    rw [hleft] at hdue
    refine .inr ⟨by omega, _, hleft, ?_⟩
    rw [TimerVars.handle]
    simp only [hexp, if_false, Bool.false_eq_true]

theorem pselectRound_handle (h : e.result ≠ .eintr) :
    v.pselectRound timer e.result now = v.handle timer now := by
  cases hr : e.result with
  | eintr => exact absurd hr h
  | _ => rfl

theorem signalRound_sig : v.signalRound timer e.result.sig now = v.handle timer now := by
  cases e.result <;> rfl

theorem signalLoop_concat (events : List SelectEvent) (e : SelectEvent) :
    signalLoop timer start (events ++ [e]) =
      (signalLoop timer start events).handle timer e.now := by
  rw [signalLoop, List.foldl_append]
  exact signalRound_sig

theorem step_eq (h : (pselectLoop timer start).step s e = some t) :
    s.loop = true ∧ t = s.round timer start e := by
  simp only [pselectLoop] at h
  split_ifs at h with hguard
  exact ⟨hguard.1, (Option.some.inj h).symm⟩

/-! ## Runs -/

/-- While the loop goes on, its variables are those of `signalLoop`. -/
structure InStep (timer start : Timeval) (s : SelectLoop) : Prop where
  onTime : s.OnTime timer start
  last : s.vars.last = s.since start
  same : s.loop = true → s.vars = signalLoop timer start (s.rounds.map SelectRound.event)

theorem init_inStep : InStep timer start (pselectLoop timer start).init where
  onTime := by
    refine ⟨fun r hr => absurd hr List.not_mem_nil, fun _ => ?_,
      fun r hr => absurd hr List.not_mem_nil, rfl⟩
    simp [pselectLoop, SelectLoop.since, TimerVars.start]
  last := rfl
  same _ := rfl

theorem round_rounds (s : SelectLoop) (e : SelectEvent) :
    ((s.round timer start e).rounds.map SelectRound.event) = s.rounds.map SelectRound.event ++ [e] := by
  rw [SelectLoop.round, List.map_append]
  rfl

theorem mem_round {r : SelectRound} (h : r ∈ (s.round timer start e).rounds) : r ∈ s.rounds ∨
    r = ⟨e, s.vars.left, s.clock, s.since start,
      (s.vars.pselectRound timer e.result e.now).runs.length ≠ s.vars.runs.length⟩ := by
  rw [SelectLoop.round] at h
  rcases List.mem_append.mp h with h | h
  · exact .inl h
  · exact .inr (List.mem_singleton.mp h)

theorem round_left (hs : InStep timer start s) (hloop : s.loop = true) :
    ∀ r ∈ (s.round timer start e).rounds,
      r.left.toUsec = timer.toUsec - (r.before.toUsec - r.since.toUsec) := by
  intro r hr
  rcases mem_round hr with hr | rfl
  · exact hs.onTime.left r hr
  · exact hs.onTime.left_next hloop

theorem round_inStep (hs : InStep timer start s) (hloop : s.loop = true) (hne : e.result ≠ .eintr) :
    InStep timer start (s.round timer start e) := by
  have hround : s.vars.pselectRound timer e.result e.now = s.vars.handle timer e.now :=
    pselectRound_handle hne
  have hvars : (s.round timer start e).vars = s.vars.handle timer e.now := hround
  have hsame : (s.round timer start e).vars =
      signalLoop timer start ((s.round timer start e).rounds.map SelectRound.event) := by
    rw [round_rounds, signalLoop_concat, hvars, hs.same hloop]
  have hlast := hs.last
  obtain ⟨hdue, hhandle⟩ | ⟨hdue, left, hleft, hhandle⟩ := handle_cases timer s.vars e.now
  · have hsince : (s.round timer start e).since start = e.now := by
      rw [SelectLoop.since, hvars, hhandle]
      simp
    refine ⟨⟨round_left hs hloop, fun _ => ?_, ?_, by rw [hsame]⟩, ?_, fun _ => hsame⟩
    · rw [hsince, hvars, hhandle]
      change timer.toUsec = timer.toUsec - (e.now.toUsec - e.now.toUsec)
      omega
    · intro r hr hover
      rcases mem_round hr with hr | rfl
      · exact hs.onTime.due r hr hover
      · left
        simp [hround, hhandle]
    · rw [hsince, hvars, hhandle]
  · have hsince : (s.round timer start e).since start = s.since start := by
      rw [SelectLoop.since, hvars, hhandle]
      rfl
    refine ⟨⟨round_left hs hloop, fun _ => ?_, ?_, by rw [hsame]⟩, ?_, fun _ => hsame⟩
    · rw [hsince, hvars, hhandle, ← hlast]
      exact hleft
    · intro r hr hover
      rcases mem_round hr with hr | rfl
      · exact hs.onTime.due r hr hover
      · simp only [← hlast] at hover
        omega
    · rw [hsince, hvars, hhandle]
      exact hlast

/-- An interrupted wait, which must not have taken the time that it leaves out. -/
theorem round_inStep_eintr (hs : InStep timer start s) (hloop : s.loop = true)
    (heintr : e.result = .eintr) (hok : s.Undisturbed timer start e) :
    InStep timer start (s.round timer start e) := by
  obtain ⟨hbefore, hclock⟩ := hok heintr
  have hround : s.vars.pselectRound timer e.result e.now = s.vars := by
    rw [heintr]
    rfl
  have hvars : (s.round timer start e).vars = s.vars := hround
  have hsince : (s.round timer start e).since start = s.since start := by
    rw [SelectLoop.since, hvars]
    rfl
  have hleft := hs.onTime.left_next hloop
  obtain ⟨hdue, -⟩ | ⟨-, left, hleft', hhandle⟩ := handle_cases timer s.vars e.now
  · rw [hs.last] at hdue
    omega
  · have hsignal : signalLoop timer start ((s.round timer start e).rounds.map SelectRound.event) =
        { s.vars with left := left } := by
      rw [round_rounds, signalLoop_concat, ← hs.same hloop, hhandle]
    refine ⟨⟨round_left hs hloop, ?_, ?_, ?_⟩, ?_, ?_⟩
    · intro hnext
      rw [hsince, hvars, hleft, ← hclock hnext]
      rfl
    · intro r hr hover
      rcases mem_round hr with hr | rfl
      · exact hs.onTime.due r hr hover
      · simp only at hover
        omega
    · rw [hsignal, hvars]
    · rw [hsince, hvars, hs.last]
    · intro hnext
      have heq : left = s.vars.left := by
        refine Timeval.toUsec_inj ?_
        rw [hleft', hleft, hclock hnext, hs.last]
      rw [hsignal, hvars, heq]

theorem reachIf_inStep (h : ReachIf (pselectLoop timer start) (SelectLoop.Undisturbed timer start) s) :
    InStep timer start s := by
  refine h.invariant (I := InStep timer start) init_inStep ?_
  intro s e t hs hok hstep
  obtain ⟨hloop, rfl⟩ := step_eq hstep
  by_cases heintr : e.result = .eintr
  · exact round_inStep_eintr hs hloop heintr hok
  · exact round_inStep hs hloop heintr

theorem reach_undisturbed (h : Reach (pselectLoop timer start) s)
    (hleft : ∀ r ∈ s.rounds, r.left.toUsec = timer.toUsec - (r.before.toUsec - r.since.toUsec))
    (hnext : s.loop = true →
      s.vars.left.toUsec = timer.toUsec - (s.clock.toUsec - (s.since start).toUsec))
    (hdue : ∀ r ∈ s.rounds, timer.toUsec ≤ r.event.now.toUsec - r.since.toUsec →
      r.ran = true ∨ r.event.loop = false)
    (hagrees : s.loop = false →
      s.vars.runs = (signalLoop timer start (s.rounds.map SelectRound.event)).runs) :
    ReachIf (pselectLoop timer start) (SelectLoop.Undisturbed timer start) s := by
  induction h with
  | init => exact .init
  | @next s t e _ _ hstep ih =>
    obtain ⟨hloop, rfl⟩ := step_eq hstep
    have hmem : ∀ r ∈ s.rounds, r ∈ (s.round timer start e).rounds := fun r hr => by
      rw [SelectLoop.round]
      exact List.mem_append_left _ hr
    have hlast : (⟨e, s.vars.left, s.clock, s.since start,
        (s.vars.pselectRound timer e.result e.now).runs.length ≠ s.vars.runs.length⟩ : SelectRound) ∈
        (s.round timer start e).rounds := by
      rw [SelectLoop.round]
      simp
    have hentry := hleft _ hlast
    have hs := ih (fun r hr => hleft r (hmem r hr)) (fun _ => hentry)
      (fun r hr => hdue r (hmem r hr)) fun hstop => absurd (hstop.symm.trans hloop) (by decide)
    refine .next hs ?_ hstep
    intro heintr
    have hround : s.vars.pselectRound timer e.result e.now = s.vars := by
      rw [heintr]
      rfl
    cases hgoes : e.loop with
    | true =>
      have hvars : (s.round timer start e).vars = s.vars := hround
      have hafter := hnext hgoes
      rw [SelectLoop.since, hvars] at hafter
      change s.vars.left.toUsec = timer.toUsec - (e.now.toUsec - (s.since start).toUsec) at hafter
      simp only at hentry
      refine ⟨?_, fun _ => Timeval.toUsec_inj (by omega)⟩
      by_contra hover
      obtain hran | hstop := hdue _ hlast (by simp only; omega)
      · simp [hround] at hran
      · exact absurd (hgoes.symm.trans hstop) (by decide)
    | false =>
      have hin := reachIf_inStep hs
      refine ⟨?_, fun hno => absurd hno (by decide)⟩
      by_contra hover
      obtain ⟨-, hhandle⟩ | ⟨hlt, -⟩ := handle_cases timer s.vars e.now
      · have hruns := hagrees hgoes
        rw [round_rounds, signalLoop_concat, ← hin.same hloop, hhandle] at hruns
        have hvars : (s.round timer start e).vars = s.vars := hround
        rw [hvars] at hruns
        simp at hruns
      · rw [hin.last] at hlt
        exact hover hlt

/-- The timer is on time in all states of exactly the runs whose interrupted waits are undisturbed. -/
theorem pselectLoop_onTime (timer start : Timeval) (s : SelectLoop) :
    ReachIf (pselectLoop timer start) (SelectLoop.Undisturbed timer start) s ↔
      Reach (pselectLoop timer start) s ∧ s.OnTime timer start := by
  constructor
  · intro h
    exact ⟨h.reach, (reachIf_inStep h).onTime⟩
  · rintro ⟨h, hs⟩
    exact reach_undisturbed h hs.left hs.left_next hs.due fun _ => hs.agrees

/-- An interval of one second, and a signal in each half of it. -/
theorem pselectLoop_starved : ¬ ∀ timer start s, Reach (pselectLoop timer start) s →
    s.OnTime timer start := by
  intro h
  have hrun : (run (pselectLoop ⟨1, 0, by decide⟩ ⟨0, 0, by decide⟩)
      (pselectLoop ⟨1, 0, by decide⟩ ⟨0, 0, by decide⟩).init
      [⟨.eintr, ⟨0, 500000, by decide⟩, true⟩, ⟨.eintr, ⟨1, 0, by decide⟩, true⟩]).map
        (fun s => (s.loop, s.vars.left.toUsec, s.clock.toUsec, (s.since ⟨0, 0, by decide⟩).toUsec)) =
      some (true, 1000000, 1000000, 0) := rfl
  obtain ⟨s, hs, hfields⟩ := Option.map_eq_some_iff.mp hrun
  simp only [Prod.mk.injEq] at hfields
  obtain ⟨hloop, hleft, hclock, hsince⟩ := hfields
  have hnext := (h _ _ s (Reach.run ReachIf.init hs)).left_next hloop
  have htimer : (⟨1, 0, by decide⟩ : Timeval).toUsec = 1000000 := by decide
  rw [hleft, hclock, hsince, htimer] at hnext
  omega

end Rounds

end Netp.Genf
