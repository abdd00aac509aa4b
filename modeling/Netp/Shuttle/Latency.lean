import Netp.Shuttle.Bridge

/-! # When a command is in force

A command waits in the control ring of its link, and each frame of the link takes one. So it is in force
after as many frames of the link as the ring can hold messages, whatever else happens in between, and it
stays in force: a blocked connection is blocked on every link (`blocked_in_time`), and TLS to an address
is diverted on the link it was given to, unless the list of the link is full (`Refines.diverted`).

The argument runs along the bridge: `Pending` bounds the frames until a command is obeyed.
-/

namespace Netp.Shuttle
open Netp.Lib Netp.Kring
set_option autoImplicit false

section Model
variable {Λ : Type}

/-- A frame of the link that takes a command: both ports are there. -/
def Links.polls [DecidableEq Λ] (s : Links Λ) (l : Λ) : Event Λ → Bool
  | .frame dev _ _ =>
      s.rxHandlerData dev = some l && (s.link l).inside.isSome && (s.link l).outside.isSome
  | _ => false

/-- The number of such frames in a run. -/
def Links.pollsIn [DecidableEq Λ] (inAton : List UInt8 → UInt32) (l : Λ) : Links Λ → List (Event Λ) → ℕ
  | _, [] => 0
  | s, e :: es =>
      (if s.polls l e then 1 else 0) +
        match s.step inAton e with
        | none => 0
        | some r => Links.pollsIn inAton l r.1 es

namespace Bridge

/-- Nothing that was blocked or added is forgotten. -/
structure Grows (b b' : Bridge Λ) : Prop where
  dev : b'.dev = b.dev
  blocked : b.blocked ⊆ b'.blocked
  added : ∀ l, b.added l <+: b'.added l

/-- What a command asks for is done. -/
def Obeyed (inAton : List UInt8 → UInt32) (l : Λ) (b : Bridge Λ) : KringCommand → Prop
  | .block cmd => cmd.conn inAton ∈ b.blocked ∧ mirror (cmd.conn inAton) ∈ b.blocked
  | .ip ip => inAton ip ∈ b.added l

/-- The command is obeyed, or it is the text `m` that lies in the queue with less than `n` before it. -/
def Pending (inAton : List UInt8 → UInt32) (l : Λ) (m : List UInt8) (cmd : KringCommand) (b : Bridge Λ)
    (n : ℕ) : Prop :=
  b.Obeyed inAton l cmd ∨ ∃ pre post, (b.queue l).unread = pre ++ m :: post ∧ pre.length < n

end Bridge

end Model

namespace Bridge

section Steps
variable {Λ : Type} {inAton : List UInt8 → UInt32} {b b' c : Bridge Λ} {l k : Λ}

theorem Grows.refl (b : Bridge Λ) : Grows b b := ⟨rfl, subset_rfl, fun _ => List.prefix_rfl⟩

theorem Grows.trans (h : Grows b b') (h' : Grows b' c) : Grows b c :=
  ⟨h'.dev.trans h.dev, h.blocked.trans h'.blocked, fun l => (h.added l).trans (h'.added l)⟩

theorem Obeyed.mono {cmd : KringCommand} (h : b.Obeyed inAton l cmd) (hg : Grows b b') :
    b'.Obeyed inAton l cmd := by
  cases cmd with
  | block cmd => exact ⟨hg.blocked h.1, hg.blocked h.2⟩
  | ip ip => exact (hg.added l).subset h

variable [DecidableEq Λ]

/-! ## A command is obeyed -/

theorem obey_queue (cmd : Option KringCommand) : (b.obey inAton l cmd).queue = b.queue := by
  rcases cmd with - | - | - <;> rfl

theorem obey_grows (cmd : Option KringCommand) : Grows b (b.obey inAton l cmd) := by
  rcases cmd with - | cmd | ip
  · exact .refl b
  · exact ⟨rfl, Set.subset_union_left, fun _ => List.prefix_rfl⟩
  · refine ⟨rfl, subset_rfl, fun k => ?_⟩
    by_cases hk : k = l
    · subst hk
      show b.added k <+: Function.update b.added k (b.added k ++ [inAton ip]) k
      rw [Function.update_self]
      exact List.prefix_append _ _
    · show b.added k <+: Function.update b.added l (b.added l ++ [inAton ip]) k
      rw [Function.update_of_ne hk]

theorem obey_obeyed (cmd : KringCommand) : (b.obey inAton l (some cmd)).Obeyed inAton l cmd := by
  cases cmd with
  | block cmd => exact ⟨.inr (.inl rfl), .inr (.inr rfl)⟩
  | ip ip =>
    show inAton ip ∈ Function.update b.added l (b.added l ++ [inAton ip]) l
    rw [Function.update_self]
    exact List.mem_append_right _ List.mem_cons_self

/-- Taking a command empties one place of the queue, and the command is obeyed. -/
theorem take_cases (h : b.take inAton k = some b') :
    Grows b b' ∧ (∀ l, l ≠ k → b'.queue l = b.queue l) ∧
      ((b.queue k).unread = [] ∧ b'.queue k = b.queue k ∨
        ∃ m ms cmd, (b.queue k).unread = m :: ms ∧ (b'.queue k).unread = ms ∧
          scanCommand (cstr m) = some cmd ∧ ∀ c, cmd = some c → b'.Obeyed inAton k c) := by
  unfold take at h
  cases hq : (b.queue k).unread with
  | nil =>
    rw [hq] at h
    obtain rfl := Option.some.inj h
    exact ⟨.refl b, fun _ _ => rfl, .inl ⟨rfl, rfl⟩⟩
  | cons m ms =>
    rw [hq] at h
    obtain ⟨cmd, hcmd, rfl⟩ := Option.map_eq_some_iff.1 h
    refine ⟨?_, fun l hl => ?_, .inr ⟨m, ms, cmd, rfl, ?_, hcmd, ?_⟩⟩
    · have hrest : Grows b { b with queue := Function.update b.queue k ⟨ms, some m⟩ } :=
        ⟨rfl, subset_rfl, fun _ => List.prefix_rfl⟩
      exact hrest.trans (obey_grows cmd)
    · rw [obey_queue]
      exact Function.update_of_ne hl _ _
    · rw [obey_queue]
      show (Function.update b.queue k (⟨ms, some m⟩ : Ctrl.Fifo) k).unread = ms
      rw [Function.update_self]
    · rintro c rfl
      exact obey_obeyed c

/-! ## A step -/

theorem handle_cases {dev : Dev} {skb : SkBuff} {cloned : Bool} {e : List (Effect Λ)}
    (h : b.handle inAton k dev skb cloned = some (b', e)) :
    ((b.inside k).isSome = true ∧ (b.outside k).isSome = true → b.take inAton k = some b') ∧
      (¬ ((b.inside k).isSome = true ∧ (b.outside k).isSome = true) → b' = b) := by
  unfold handle at h
  cases hin : b.inside k with
  | none =>
    rw [hin] at h
    exact ⟨fun hp => absurd hp.1 (by simp), fun _ => (Prod.mk.inj (Option.some.inj h)).1.symm⟩
  | some inside =>
    cases hout : b.outside k with
    | none =>
      rw [hin, hout] at h
      exact ⟨fun hp => absurd hp.2 (by simp), fun _ => (Prod.mk.inj (Option.some.inj h)).1.symm⟩
    | some outside =>
      rw [hin, hout] at h
      obtain ⟨t, ht, h⟩ := Option.bind_eq_some_iff.1 h
      refine ⟨fun _ => ?_, fun hp => absurd ⟨rfl, rfl⟩ hp⟩
      rw [ht]
      split_ifs at h
      · obtain ⟨_, -, h⟩ := Option.map_eq_some_iff.1 h
        exact congrArg some (Prod.mk.inj h).1
      · exact congrArg some (Prod.mk.inj (Option.some.inj h)).1
      · exact congrArg some (Prod.mk.inj (Option.some.inj h)).1

/-- What is done with a frame is decided in the state after the command. -/
theorem handle_effects {dev : Dev} {skb : SkBuff} {cloned : Bool} {e : List (Effect Λ)}
    (h : b.handle inAton k dev skb cloned = some (b', e)) : e = [.kfreeSkb] ∨
    (∃ outside, b.inside k = some dev ∧ b'.fromInside k outside skb cloned = some e) ∨
    ∃ inside, b.inside k ≠ some dev ∧ e = b'.fromOutside k inside skb := by
  unfold handle at h
  cases hin : b.inside k with
  | none =>
    rw [hin] at h
    exact .inl (Prod.mk.inj (Option.some.inj h)).2.symm
  | some inside =>
    cases hout : b.outside k with
    | none =>
      rw [hin, hout] at h
      exact .inl (Prod.mk.inj (Option.some.inj h)).2.symm
    | some outside =>
      rw [hin, hout] at h
      obtain ⟨t, -, h⟩ := Option.bind_eq_some_iff.1 h
      split_ifs at h with hdev
      · obtain ⟨e', he, h⟩ := Option.map_eq_some_iff.1 h
        obtain ⟨rfl, rfl⟩ := Prod.mk.inj h
        exact .inr (.inl ⟨outside, by rw [hdev], he⟩)
      · obtain ⟨rfl, rfl⟩ := Prod.mk.inj (Option.some.inj h)
        refine .inr (.inr ⟨inside, fun hd => hdev (Option.some.inj hd).symm, rfl⟩)
      · exact .inl (Prod.mk.inj (Option.some.inj h)).2.symm

theorem handle_grows {dev : Dev} {skb : SkBuff} {cloned : Bool} {e : List (Effect Λ)}
    (h : b.handle inAton k dev skb cloned = some (b', e)) : Grows b b' := by
  obtain ⟨htake, hstay⟩ := handle_cases h
  by_cases hports : (b.inside k).isSome = true ∧ (b.outside k).isSome = true
  · exact (take_cases (htake hports)).1
  · rw [hstay hports]
    exact .refl b

theorem portAdd_same (dev : Option Dev) (dir : List UInt8) : (b.portAdd l dev dir).1.queue = b.queue ∧
    (b.portAdd l dev dir).1.blocked = b.blocked ∧ (b.portAdd l dev dir).1.added = b.added ∧
      (b.portAdd l dev dir).1.dev = b.dev := by
  unfold portAdd
  cases dev with
  | none => exact ⟨rfl, rfl, rfl, rfl⟩
  | some dev =>
    dsimp only
    split_ifs <;> exact ⟨rfl, rfl, rfl, rfl⟩

theorem portDel_same (dev : Option Dev) : (b.portDel l dev).1.queue = b.queue ∧
    (b.portDel l dev).1.blocked = b.blocked ∧ (b.portDel l dev).1.added = b.added ∧
      (b.portDel l dev).1.dev = b.dev := by
  unfold portDel
  cases dev with
  | none => exact ⟨rfl, rfl, rfl, rfl⟩
  | some dev =>
    dsimp only
    split_ifs <;> exact ⟨rfl, rfl, rfl, rfl⟩

/-- What an event does to the commands of a link: nothing, or one more at the end, or the first one is
taken and obeyed. The first is taken if the event is a frame of the link with its ports there. -/
theorem step_cases {s : Links Λ} (hs : Refines s b) {e : Event Λ} {o : Out Λ}
    (h : b.step inAton e = some (b', o)) : Grows b b' ∧
      (s.polls l e = false ∧ (∃ new, (b'.queue l).unread = (b.queue l).unread ++ new) ∨
        s.polls l e = true ∧ b.take inAton l = some b') := by
  cases e with
  | frame dev skb cloned =>
    obtain ⟨k, hk, h⟩ := Option.bind_eq_some_iff.1 h
    obtain ⟨⟨t, e⟩, ht, h⟩ := Option.map_eq_some_iff.1 h
    obtain ⟨rfl, -⟩ := Prod.mk.inj h
    obtain ⟨htake, hstay⟩ := handle_cases ht
    have hpolls : s.polls l (.frame dev skb cloned) = true ↔
        k = l ∧ (b.inside l).isSome = true ∧ (b.outside l).isSome = true := by
      simp [Links.polls, hs.handler, hk, (hs.link l).inside, (hs.link l).outside, and_assoc]
    by_cases hports : (b.inside k).isSome = true ∧ (b.outside k).isSome = true
    · have ht := htake hports
      obtain ⟨hg, hother, -⟩ := take_cases ht
      refine ⟨hg, ?_⟩
      by_cases hkl : k = l
      · subst hkl
        exact .inr ⟨hpolls.2 ⟨rfl, hports⟩, ht⟩
      · refine .inl ⟨?_, [], ?_⟩
        · rw [Bool.eq_false_iff]
          exact fun hp => hkl (hpolls.1 hp).1
        · rw [hother l (Ne.symm hkl), List.append_nil]
    · obtain rfl := hstay hports
      refine ⟨.refl _, .inl ⟨?_, [], (List.append_nil _).symm⟩⟩
      rw [Bool.eq_false_iff]
      intro hp
      obtain ⟨rfl, hp⟩ := hpolls.1 hp
      exact hports hp
  | xmit k skb =>
    obtain ⟨_, -, h⟩ := Option.map_eq_some_iff.1 h
    obtain ⟨rfl, -⟩ := Prod.mk.inj h
    exact ⟨.refl _, .inl ⟨rfl, [], (List.append_nil _).symm⟩⟩
  | write k w data =>
    simp only [step] at h
    split_ifs at h with hfull
    · obtain ⟨rfl, -⟩ := Prod.mk.inj (Option.some.inj h)
      exact ⟨.refl _, .inl ⟨rfl, [], (List.append_nil _).symm⟩⟩
    · obtain ⟨rfl, -⟩ := Prod.mk.inj (Option.some.inj h)
      refine ⟨⟨rfl, subset_rfl, fun _ => List.prefix_rfl⟩, .inl ⟨rfl, ?_⟩⟩
      by_cases hkl : l = k
      · subst hkl
        refine ⟨[Ctrl.clip data], ?_⟩
        simp only [Function.update_self]
      · refine ⟨[], ?_⟩
        simp only [Function.update_of_ne hkl, List.append_nil]
  | ipAdd k ip =>
    obtain ⟨rfl, -⟩ := Prod.mk.inj (Option.some.inj h)
    exact ⟨obey_grows (some (.ip ip)), .inl ⟨rfl, [], (List.append_nil _).symm⟩⟩
  | block cmd =>
    obtain ⟨rfl, -⟩ := Prod.mk.inj (Option.some.inj h)
    exact ⟨⟨rfl, Set.subset_union_left, fun _ => List.prefix_rfl⟩, .inl ⟨rfl, [], (List.append_nil _).symm⟩⟩
  | portAdd k dev dir =>
    obtain ⟨rfl, -⟩ := Prod.mk.inj (Option.some.inj h)
    obtain ⟨hqueue, hblocked, hadded, hdev⟩ := portAdd_same (b := b) (l := k) dev dir
    refine ⟨⟨hdev, hblocked ▸ subset_rfl, fun l => hadded ▸ List.prefix_rfl⟩, .inl ⟨rfl, [], ?_⟩⟩
    rw [hqueue, List.append_nil]
  | portDel k dev =>
    obtain ⟨rfl, -⟩ := Prod.mk.inj (Option.some.inj h)
    obtain ⟨hqueue, hblocked, hadded, hdev⟩ := portDel_same (b := b) (l := k) dev
    refine ⟨⟨hdev, hblocked ▸ subset_rfl, fun l => hadded ▸ List.prefix_rfl⟩, .inl ⟨rfl, [], ?_⟩⟩
    rw [hqueue, List.append_nil]

theorem Pending.step {s : Links Λ} (hs : Refines s b) {m : List UInt8} {cmd : KringCommand} {n : ℕ}
    (hm : scanCommand (cstr m) = some (some cmd)) (hp : Pending inAton l m cmd b n) {e : Event Λ}
    {o : Out Λ} (h : b.step inAton e = some (b', o)) :
    Pending inAton l m cmd b' (n - if s.polls l e then 1 else 0) := by
  obtain ⟨hg, hkind⟩ := step_cases (l := l) hs h
  rcases hp with hdone | ⟨pre, post, hq, hlen⟩
  · exact .inl (hdone.mono hg)
  · rcases hkind with ⟨hpolls, new, hnew⟩ | ⟨hpolls, htake⟩
    · refine .inr ⟨pre, post ++ new, ?_, ?_⟩
      · rw [hnew, hq, List.append_assoc, List.cons_append]
      · simpa [hpolls] using hlen
    · obtain ⟨-, -, hempty | ⟨m', ms, cmd', hq', hrest, hcmd', hdone⟩⟩ := take_cases htake
      · rw [hempty.1] at hq
        exact absurd hq.symm (by simp)
      · rw [hq] at hq'
        cases pre with
        | nil =>
          -- its turn
          obtain ⟨rfl, -⟩ := List.cons.inj hq'
          rw [hm] at hcmd'
          exact .inl (hdone cmd (Option.some.inj hcmd').symm)
        | cons p pre =>
          obtain ⟨-, rfl⟩ := List.cons.inj hq'
          refine .inr ⟨pre, post, hrest, ?_⟩
          rw [List.length_cons] at hlen
          simp only [hpolls, if_true]
          omega

end Steps

end Bridge

/-! ## A run -/

section Runs
variable {Λ : Type} [DecidableEq Λ] {inAton : List UInt8 → UInt32} {s t : Links Λ} {b : Bridge Λ} {l : Λ}
  {m : List UInt8} {cmd : KringCommand} {n : ℕ}

theorem Bridge.Pending.run {el : Ptr → AvlEl Ptr} {conn : Ptr → Connection} {dev : Λ → Dev}
    {events : List (Event Λ)} {os : List (Out Λ)} (hs : Refines s b)
    (hm : scanCommand (cstr m) = some (some cmd)) (hp : b.Pending inAton l m cmd n)
    (hterm : ∀ e ∈ events, e.Terminated)
    (h : (shuttle inAton el conn dev).trace s events = some (t, os)) :
    ∃ b', Refines t b' ∧ b'.Pending inAton l m cmd (n - s.pollsIn inAton l events) := by
  induction events generalizing s b n os with
  | nil =>
    obtain ⟨rfl, -⟩ := Prod.mk.inj (Option.some.inj h)
    exact ⟨b, hs, hp⟩
  | cons e events ih =>
    obtain ⟨⟨s', o⟩, hstep, h⟩ := Option.bind_eq_some_iff.1 h
    obtain ⟨⟨t', os'⟩, hrest, h⟩ := Option.map_eq_some_iff.1 h
    obtain ⟨rfl, -⟩ := Prod.mk.inj h
    have hrel := hs.step inAton e (hterm e List.mem_cons_self)
    have hstep' : s.step inAton e = some (s', o) := hstep
    rw [hstep'] at hrel
    cases hb : b.step inAton e with
    | none =>
      rw [hb] at hrel
      cases hrel
    | some r =>
      obtain ⟨b', o'⟩ := r
      rw [hb] at hrel
      cases hrel with
      | some hr =>
        have hp' := hp.step hs hm hb
        obtain ⟨b'', hs'', hp''⟩ := ih hr.1 hp' (fun e he => hterm e (List.mem_cons_of_mem _ he)) hrest
        refine ⟨b'', hs'', ?_⟩
        simp only [Links.pollsIn, hstep']
        rw [← Nat.sub_sub]
        exact hp''

omit [DecidableEq Λ] in
/-- The queue of the bridge holds no more than the ring. -/
theorem Refines.room (hs : Refines s b) (l : Λ) : (b.queue l).unread.length ≤ Ctrl.kctrlNpages - 1 := by
  obtain ⟨fs, rd, tail, st, hpart, hunread, -⟩ := (hs.link l).cmd
  have hlen := hpart.length
  rw [hunread, List.length_map]
  omega

/-- A command that the ring accepted is obeyed at the latest when the ring could be read to its end. -/
theorem Refines.written (cmd : KringCommand) (hs : Refines s b) {w : Ctrl.WriterId} {data : List UInt8}
    (hterm : 0 ∈ Ctrl.clip data) (h : s.step inAton (.write l w data) = some (t, .wrote true)) :
    ∃ b', Refines t b' ∧ b'.Pending inAton l (Ctrl.clip data) cmd (Ctrl.kctrlNpages - 1) := by
  have hrel := hs.write inAton l w hterm
  have hroom := hs.room l
  simp only [Bridge.step] at hrel
  rw [h] at hrel
  split_ifs at hrel with hfull
  · cases hrel with
    | some hr => exact absurd hr.2 (by simp)
  · cases hrel with
    | some hr =>
      refine ⟨_, hr.1, .inr ⟨(b.queue l).unread, [], ?_, by omega⟩⟩
      simp only [Function.update_self]

theorem refines_of_trace {el : Ptr → AvlEl Ptr} {conn : Ptr → Connection} {dev : Λ → Dev}
    {events : List (Event Λ)} {os : List (Out Λ)} (hterm : ∀ e ∈ events, e.Terminated)
    (h : (shuttle inAton el conn dev).trace (shuttle inAton el conn dev).init events = some (s, os)) :
    ∃ b, (bridge inAton dev).trace (bridge inAton dev).init events = some (b, os) ∧ Refines s b := by
  have hsim := shuttle_simulation inAton el conn dev
  have hrel := hsim.trace hsim.init events hterm
  rw [h] at hrel
  cases hb : (bridge inAton dev).trace (bridge inAton dev).init events with
  | none =>
    rw [hb] at hrel
    cases hrel
  | some y =>
    rw [hb] at hrel
    cases hrel with
    | some h => exact ⟨y.1, by rw [show os = y.2 from h.2], h.1⟩

/-- From the start: a command that was accepted is obeyed after as many frames of the link as the ring
holds messages. -/
theorem obeyed_in_time (el : Ptr → AvlEl Ptr) (conn : Ptr → Connection) (dev : Λ → Dev)
    {before later : List (Event Λ)} {w : Ctrl.WriterId} {data : List UInt8} {r u : Links Λ}
    {os os' : List (Out Λ)}
    (hterm : ∀ e ∈ before ++ .write l w data :: later, e.Terminated)
    (hcmd : scanCommand (cstr (Ctrl.clip data)) = some (some cmd))
    (hbefore : (shuttle inAton el conn dev).trace (shuttle inAton el conn dev).init before = some (r, os))
    (hwrite : r.step inAton (.write l w data) = some (t, .wrote true))
    (hlater : (shuttle inAton el conn dev).trace t later = some (u, os'))
    (hpolls : Ctrl.kctrlNpages - 1 ≤ t.pollsIn inAton l later) :
    ∃ b, Refines u b ∧ b.Obeyed inAton l cmd := by
  obtain ⟨b, -, hr⟩ := refines_of_trace (fun e he => hterm e (List.mem_append_left _ he)) hbefore
  have hzero : 0 ∈ Ctrl.clip data := hterm _ (List.mem_append_right _ List.mem_cons_self)
  obtain ⟨b', ht, hp⟩ := hr.written cmd hzero hwrite
  have hlater' : ∀ e ∈ later, e.Terminated := fun e he =>
    hterm e (List.mem_append_right _ (List.mem_cons_of_mem _ he))
  obtain ⟨b'', hu, hdone | ⟨pre, post, -, hlt⟩⟩ := hp.run ht hcmd hlater' hlater
  · exact ⟨b'', hu, hdone⟩
  · exact absurd hlt (by omega)

/-! ## Frames after it -/

theorem isTcp_not_isArp {skb : SkBuff} (h : skb.isTcp = true) : skb.isArp = false := by
  rw [SkBuff.isTcp, Bool.and_eq_true, decide_eq_true_iff] at h
  rw [SkBuff.isArp, h.1]
  decide

/-- What a frame does in the shuttle it does in the bridge. -/
theorem Refines.frame {u v : Links Λ} (hu : Refines u b) {dev : Dev} {skb : SkBuff} {cloned : Bool}
    {out : Out Λ} (h : u.step inAton (.frame dev skb cloned) = some (v, out)) :
    ∃ k b' e, b.handler dev = some k ∧ b.handle inAton k dev skb cloned = some (b', e) ∧
      out = .effects e := by
  have hrel := hu.step inAton (.frame dev skb cloned) trivial
  rw [h] at hrel
  cases hb : b.step inAton (.frame dev skb cloned) with
  | none =>
    rw [hb] at hrel
    cases hrel
  | some y =>
    rw [hb] at hrel
    obtain ⟨b', out'⟩ := y
    cases hrel with
    | some hr =>
      obtain ⟨-, rfl⟩ := hr
      obtain ⟨k, hk, hb⟩ := Option.bind_eq_some_iff.1 hb
      obtain ⟨⟨b'', e⟩, hb, he⟩ := Option.map_eq_some_iff.1 hb
      exact ⟨k, b'', e, hk, hb, (Prod.mk.inj he).2.symm⟩

/-- A packet of a blocked connection is freed, whichever device it comes from. -/
theorem Refines.dropped {u v : Links Λ} (hu : Refines u b) {dev : Dev} {skb : SkBuff} {cloned : Bool}
    {out : Out Λ} (htcp : skb.isTcp = true) (hblocked : skb.headers.conn ∈ b.blocked)
    (h : u.step inAton (.frame dev skb cloned) = some (v, out)) : out = .effects [.kfreeSkb] := by
  obtain ⟨k, b', e, -, hb, rfl⟩ := hu.frame h
  have hdrop : b'.Drops skb := ⟨htcp, (Bridge.handle_grows hb).blocked hblocked⟩
  rcases Bridge.handle_effects hb with rfl | ⟨outside, -, he⟩ | ⟨inside, -, rfl⟩
  · rfl
  · rw [Bridge.fromInside, isTcp_not_isArp htcp] at he
    simp only [Bool.false_eq_true, if_false, hdrop, if_true, Option.some.injEq] at he
    rw [← he]
  · rw [Bridge.fromOutside, if_pos hdrop]

/-- A TLS packet to an address the link has in its list is freed or goes to the host. -/
theorem Refines.diverted {u v : Links Λ} (hu : Refines u b) {dev : Dev} {skb : SkBuff} {cloned : Bool}
    {out : Out Λ} (hhandler : u.rxHandlerData dev = some l) (hinside : (u.link l).inside = some dev)
    (htcp : skb.isTcp = true) (htls : skb.isTls = true) (hip : skb.headers.daddr ∈ (u.link l).ips)
    (h : u.step inAton (.frame dev skb cloned) = some (v, out)) :
    out = .effects [.kfreeSkb] ∨
      out = .effects [.kwrite l kdataDirInside skb.bytes, .netifReceiveSkb (u.link l).dev skb.bytes] := by
  obtain ⟨k, b', e, hk, hb, rfl⟩ := hu.frame h
  rw [hu.handler] at hhandler
  rw [hhandler] at hk
  obtain rfl := Option.some.inj hk
  rw [(hu.link l).inside] at hinside
  have hgrows := Bridge.handle_grows hb
  rcases Bridge.handle_effects hb with rfl | ⟨outside, -, he⟩ | ⟨inside, hother, -⟩
  · exact .inl rfl
  · rw [Bridge.fromInside, isTcp_not_isArp htcp] at he
    simp only [Bool.false_eq_true, if_false] at he
    split_ifs at he with hdrop hdivert
    · exact .inl (congrArg Out.effects (Option.some.inj he).symm)
    · refine .inr (congrArg Out.effects ?_)
      rw [(hu.link l).dev, ← Option.some.inj he, hgrows.dev]
    · refine absurd ⟨htcp, htls, ?_⟩ hdivert
      rw [(hu.link l).ips] at hip
      exact ((hgrows.added l).take linkIps).subset hip
  · exact absurd hinside hother

/-! ## Frames do not get stuck -/

/-- The link has its ports, with the handler of `dev`, and the texts it is to obey fit. -/
def Bridge.Ready (b : Bridge Λ) (l : Λ) (dev : Dev) : Prop :=
  b.handler dev = some l ∧ (b.inside l).isSome = true ∧ (b.outside l).isSome = true ∧
    ∀ m ∈ (b.queue l).unread, (scanCommand (cstr m)).isSome = true

theorem Bridge.Ready.take (inAton : List UInt8 → UInt32) (h : b.Ready l n) :
    ∃ b', b.take inAton l = some b' ∧ b'.Ready l n := by
  obtain ⟨hhandler, hin, hout, hfits⟩ := h
  unfold Bridge.take
  cases hq : (b.queue l).unread with
  | nil => exact ⟨b, rfl, hhandler, hin, hout, hfits⟩
  | cons m ms =>
    rw [hq] at hfits
    obtain ⟨cmd, hcmd⟩ := Option.isSome_iff_exists.1 (hfits m List.mem_cons_self)
    dsimp only
    rw [hcmd]
    refine ⟨_, rfl, ?_⟩
    have hrest : ∀ x ∈ ms, (scanCommand (cstr x)).isSome = true := fun x hx =>
      hfits x (List.mem_cons_of_mem _ hx)
    rcases cmd with - | - | - <;> refine ⟨hhandler, hin, hout, ?_⟩ <;>
      simpa [Bridge.obey, Bridge.block, Bridge.add] using hrest

/-- Frames that are neither ARP nor TCP are handled one after the other. -/
theorem Refines.frames (el : Ptr → AvlEl Ptr) (conn : Ptr → Connection) (dev : Λ → Dev) {port : Dev}
    {skb : SkBuff} (cloned : Bool) (harp : skb.isArp = false) (htcp : skb.isTcp = false) (n : ℕ)
    (hs : Refines s b) (hready : b.Ready l port) :
    ∃ u os, (shuttle inAton el conn dev).trace s (List.replicate n (.frame port skb cloned)) = some (u, os) ∧
      s.pollsIn inAton l (List.replicate n (.frame port skb cloned)) = n := by
  induction n generalizing s b with
  | zero => exact ⟨s, [], rfl, rfl⟩
  | succ n ih =>
    obtain ⟨b1, htake, hready'⟩ := hready.take inAton
    obtain ⟨hhandler, hin, hout, -⟩ := hready
    have hrel := hs.step inAton (.frame port skb cloned) trivial
    have hb : ∃ o, b.step inAton (.frame port skb cloned) = some (b1, o) := by
      obtain ⟨inside, hin⟩ := Option.isSome_iff_exists.1 hin
      obtain ⟨outside, hout⟩ := Option.isSome_iff_exists.1 hout
      simp only [Bridge.step, hhandler, Option.bind_some, Bridge.handle, hin, hout, htake]
      have hpass : ¬ b1.Drops skb := fun hd => absurd hd.1 (by simp [htcp])
      have hplain : ¬ b1.Diverts l skb := fun hd => absurd hd.1 (by simp [htcp])
      split_ifs
      · simp [Bridge.fromInside, harp, hpass, hplain]
      · exact ⟨_, rfl⟩
      · exact ⟨_, rfl⟩
    obtain ⟨o, hb⟩ := hb
    rw [hb] at hrel
    cases ht : s.step inAton (.frame port skb cloned) with
    | none =>
      rw [ht] at hrel
      cases hrel
    | some y =>
      rw [ht] at hrel
      cases hrel with
      | some hr =>
        obtain ⟨u, os, htrace, hpolls⟩ := ih hr.1 hready'
        have hstep : (shuttle inAton el conn dev).step s (.frame port skb cloned) = some y := ht
        refine ⟨u, y.2 :: os, ?_, ?_⟩
        · rw [List.replicate_succ, Machine.trace, hstep, Option.bind_some, htrace]
          rfl
        · have hlook : s.polls l (.frame port skb cloned) = true := by
            simp [Links.polls, hs.handler, hhandler, (hs.link l).inside, (hs.link l).outside, hin, hout]
          rw [List.replicate_succ, Links.pollsIn, hlook, ht]
          dsimp only
          rw [hpolls, if_pos rfl, Nat.add_comm]

end Runs

/-- Once a command to block a connection was accepted by the control ring of a link, and the link has
handled as many frames as the ring holds messages, every packet of the connection, in either direction
and on any link, is freed and nothing else. -/
theorem blocked_in_time {Λ : Type} [DecidableEq Λ] {inAton : List UInt8 → UInt32} {el : Ptr → AvlEl Ptr}
    {conn : Ptr → Connection} {dev : Λ → Dev} {before later : List (Event Λ)} {l : Λ} {w : Ctrl.WriterId}
    {data : List UInt8} {cmd : Cmd} {r t u v : Links Λ} {os os' : List (Out Λ)}
    (hterm : ∀ e ∈ before ++ .write l w data :: later, e.Terminated)
    (hcmd : scanCommand (cstr (Ctrl.clip data)) = some (some (.block cmd)))
    (hbefore : (shuttle inAton el conn dev).trace (shuttle inAton el conn dev).init before = some (r, os))
    (hwrite : r.step inAton (.write l w data) = some (t, .wrote true))
    (hlater : (shuttle inAton el conn dev).trace t later = some (u, os'))
    (hpolls : Ctrl.kctrlNpages - 1 ≤ t.pollsIn inAton l later)
    {port : Dev} {skb : SkBuff} {cloned : Bool} {out : Out Λ} (htcp : skb.isTcp = true)
    (hconn : skb.headers.conn = cmd.conn inAton ∨ skb.headers.conn = mirror (cmd.conn inAton))
    (hframe : u.step inAton (.frame port skb cloned) = some (v, out)) : out = .effects [.kfreeSkb] := by
  obtain ⟨b, hu, hdone⟩ := obeyed_in_time el conn dev hterm hcmd hbefore hwrite hlater hpolls
  refine hu.dropped htcp ?_ hframe
  rcases hconn with hc | hc
  · rw [hc]
    exact hdone.1
  · rw [hc]
    exact hdone.2

/-! ## One link -/

def onePorts : List (Event LinkName) :=
  [.portAdd .l0 (some 0) (bytes "inside"), .portAdd .l0 (some 1) (bytes "outside")]

/-- A command, and as many frames as the ring holds messages. -/
theorem oneLink_frames (inAton : List UInt8 → UInt32) {data : List UInt8} (hzero : 0 ∈ Ctrl.clip data)
    {cmd : Option KringCommand} (hcmd : scanCommand (cstr (Ctrl.clip data)) = some cmd) :
    ∃ r t u os os', (oneLink inAton).trace (oneLink inAton).init onePorts = some (r, os) ∧
      r.step inAton (.write .l0 writer0 data) = some (t, .wrote true) ∧
      (oneLink inAton).trace t (List.replicate (Ctrl.kctrlNpages - 1) (.frame 0 ipv6 true)) = some (u, os') ∧
      t.pollsIn inAton .l0 (List.replicate (Ctrl.kctrlNpages - 1) (.frame 0 ipv6 true)) =
        Ctrl.kctrlNpages - 1 := by
  obtain ⟨r, os, hr⟩ : ∃ r os, (oneLink inAton).trace (oneLink inAton).init onePorts = some (r, os) :=
    ⟨_, _, rfl⟩
  obtain ⟨b, hb, hs⟩ := refines_of_trace (by simp [onePorts, Event.Terminated]) hr
  have hports : b.handler 0 = some .l0 ∧ (b.inside .l0).isSome = true ∧ (b.outside .l0).isSome = true ∧
      (b.queue .l0).unread = [] := by
    cases hb
    exact ⟨rfl, rfl, rfl, rfl⟩
  obtain ⟨hhandler, hin, hout, hempty⟩ := hports
  have hrel := hs.write inAton .l0 writer0 hzero
  let q : Ctrl.Fifo := ⟨[Ctrl.clip data], (b.queue .l0).taken⟩
  have hwrite : b.step inAton (.write .l0 writer0 data) =
      some ({ b with queue := Function.update b.queue .l0 q }, .wrote true) := by
    rw [Bridge.step, if_neg (by rw [hempty]; decide), hempty]
    rfl
  rw [hwrite] at hrel
  cases ht : r.step inAton (.write .l0 writer0 data) with
  | none =>
    rw [ht] at hrel
    cases hrel
  | some y =>
    rw [ht] at hrel
    obtain ⟨t, o⟩ := y
    cases hrel with
    | some h =>
      obtain ⟨hrefines, rfl⟩ := h
      have hready : Bridge.Ready { b with queue := Function.update b.queue .l0 q } .l0 0 := by
        refine ⟨hhandler, hin, hout, ?_⟩
        simp only [Function.update_self]
        intro x hx
        rw [List.mem_singleton.1 hx, hcmd]
        rfl
      have harp : ipv6.isArp = false := by decide
      have htcp : ipv6.isTcp = false := by decide
      obtain ⟨u, os', hu, hpolls⟩ := hrefines.frames (fun _ => ⟨none, none, none, 0⟩)
        (fun _ => ⟨0, 0, 0, 0⟩) (fun _ => 2) true harp htcp (Ctrl.kctrlNpages - 1) hready
      exact ⟨r, t, u, os, os', hr, ht, hu, hpolls⟩

theorem blocked_in_time_reply : ∃ r t u os os',
    (oneLink twoHosts).trace (oneLink twoHosts).init onePorts = some (r, os) ∧
      r.step twoHosts (.write .l0 writer0 (bytes "b 10.0.0.1 5 10.0.0.2 443" ++ [0])) = some (t, .wrote true) ∧
      (oneLink twoHosts).trace t (List.replicate (Ctrl.kctrlNpages - 1) (.frame 0 ipv6 true)) =
        some (u, os') ∧
      ∀ v out, u.step twoHosts (.frame 1 reply true) = some (v, out) → out = .effects [.kfreeSkb] := by
  let data := bytes "b 10.0.0.1 5 10.0.0.2 443" ++ [0]
  have hcmd : scanCommand (cstr (Ctrl.clip data)) =
      some (some (.block ⟨bytes "10.0.0.1", 5, bytes "10.0.0.2", 443⟩)) := by decide
  have hzero : 0 ∈ Ctrl.clip data := by decide
  obtain ⟨r, t, u, os, os', hr, ht, hu, hpolls⟩ := oneLink_frames twoHosts hzero hcmd
  refine ⟨r, t, u, os, os', hr, ht, hu, fun v out hframe => ?_⟩
  refine blocked_in_time ?_ hcmd hr ht hu hpolls.ge (by decide) (.inr (by decide)) hframe
  simp only [onePorts, List.mem_append, List.mem_cons, List.not_mem_nil, or_false, List.mem_replicate]
  rintro e ((rfl | rfl) | rfl | ⟨-, rfl⟩)
  · trivial
  · trivial
  · exact hzero
  · trivial

end Netp.Shuttle
