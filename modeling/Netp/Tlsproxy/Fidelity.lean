import Netp.Tlsproxy.Proxy

/-! # What goes through the proxy

`Faithful`: what a half has accepted is what was decrypted, and with what is left in its write
blocks it is what was read for it. `writeFrom` takes its offset from the last block. That is the
wrong one if the first block is partly consumed and there is another behind it, and a write then
passes on bytes of the first block once more; no other step breaks `Faithful`
(`sound_step_iff`).
-/

namespace Netp.Tlsproxy
open Netp.Lib
set_option autoImplicit false

section Blocks
variable {blocklen : ℕ}

/-! ## Blocks -/

/-- The bytes of a block that are not consumed. -/
def WriteBlock.left (b : WriteBlock blocklen) : List UInt8 := b.data.drop b.head

/-- The bytes that the list holds, in order. -/
def FdDesc.remaining (d : FdDesc blocklen) : List UInt8 := (d.wbList.map WriteBlock.left).flatten

/-- Only the first block is ever partly consumed. -/
def FdDesc.Tidy (d : FdDesc blocklen) : Prop := ∀ b ∈ d.wbList.tail, b.head = 0

structure Faithful (d : FdDesc blocklen) : Prop where
  same : d.accepted = d.decrypted
  pre : d.accepted <+: d.input
  stream : d.accepted ++ d.remaining = d.input

theorem faithful_of_stream {d : FdDesc blocklen} (hs : d.accepted = d.decrypted)
    (h : d.accepted ++ d.remaining = d.input) : Faithful d := by
  refine ⟨hs, ?_, h⟩
  rw [← h]
  exact List.prefix_append _ _

/-- The condition on a `tlsWrite` that takes `k` bytes if there are so many: there is one block, or
nothing of the first is consumed yet, or its first bytes happen to be those that are due. -/
def FdDesc.WriteOk (d : FdDesc blocklen) (k : ℕ) : Prop :=
  ∀ b ∈ d.wbList.head?, d.wbList.length ≤ 1 ∨ b.head = 0 ∨
    b.data.take (min k (b.tail - b.head)) = b.left.take (min k (b.tail - b.head))

instance (d : FdDesc blocklen) (k : ℕ) : Decidable (d.WriteOk k) :=
  inferInstanceAs (Decidable (∀ b ∈ d.wbList.head?, _))

theorem left_new : (WriteBlock.new : WriteBlock blocklen).left = [] := rfl

theorem left_fill (b : WriteBlock blocklen) (bs : List UInt8)
    (h : bs.length ≤ blocklen - b.tail) : (b.fill bs).left = b.left ++ bs := by
  unfold WriteBlock.left WriteBlock.fill
  simp only
  rw [List.take_of_length_le h, List.drop_append_of_le_length b.head_le]

/-! ## Reading in -/

theorem addSpace_remaining (d : FdDesc blocklen) : d.addSpace.remaining = d.remaining := by
  simp [FdDesc.addSpace, FdDesc.remaining, left_new]

theorem addSpace_tidy {d : FdDesc blocklen} (h : d.Tidy) : d.addSpace.Tidy := by
  unfold FdDesc.Tidy FdDesc.addSpace at *
  intro b hb
  cases hl : d.wbList with
  | nil =>
    rw [hl] at hb
    cases hb
  | cons c rest =>
    rw [hl] at hb h
    simp only [List.cons_append, List.tail_cons, List.mem_append, List.mem_singleton] at hb h
    rcases hb with hb | rfl
    · exact h b hb
    · rfl

/-- With room in the last block the bytes come behind all others. -/
theorem readIn_remaining (d : FdDesc blocklen) (bs : List UInt8) (hne : bs ≠ [])
    (h : bs.length ≤ d.readAvail) : (d.readIn bs).remaining = d.remaining ++ bs := by
  unfold FdDesc.readIn FdDesc.readAvail FdDesc.remaining at *
  rcases List.eq_nil_or_concat d.wbList with hl | ⟨bl, b, hl⟩
  · rw [hl] at h
    exact absurd (List.eq_nil_of_length_eq_zero (Nat.le_zero.1 h)) hne
  · rw [hl, List.concat_eq_append] at h ⊢
    rw [List.getLast?_append, List.getLast?_singleton] at h ⊢
    simp only [Option.some_or, List.dropLast_concat] at h ⊢
    rw [List.map_append, List.map_append, List.flatten_append, List.flatten_append]
    simp only [List.map_cons, List.map_nil, List.flatten_cons, List.flatten_nil, List.append_nil]
    rw [left_fill b bs h, List.append_assoc]

theorem readIn_tidy {d : FdDesc blocklen} (bs : List UInt8) (h : d.Tidy) : (d.readIn bs).Tidy := by
  unfold FdDesc.Tidy FdDesc.readIn at *
  rcases List.eq_nil_or_concat d.wbList with hl | ⟨bl, b, hl⟩
  · rw [hl]
    simp only [List.getLast?_nil]
    exact h
  · rw [hl, List.concat_eq_append] at h ⊢
    rw [List.getLast?_append, List.getLast?_singleton]
    simp only [Option.some_or, List.dropLast_concat]
    intro c hc
    cases bl with
    | nil => cases hc
    | cons a rest =>
      simp only [List.cons_append, List.tail_cons, List.mem_append, List.mem_singleton] at hc h
      rcases hc with hc | rfl
      · exact h c (.inl hc)
      · exact h b (.inr rfl)

/-! ## Writing out -/

/-- The first block is read from its own offset if it is the last, else from its beginning. -/
theorem writeFrom_eq {d : FdDesc blocklen} (h : d.Tidy) {b : WriteBlock blocklen}
    {rest : List (WriteBlock blocklen)} (hl : d.wbList = b :: rest) :
    d.writeFrom = if rest = [] then b.left else b.data := by
  unfold FdDesc.writeFrom
  rw [hl]
  rcases List.eq_nil_or_concat rest with rfl | ⟨bl, last, rfl⟩
  · rfl
  · have hlast : last.head = 0 := by
      apply h
      rw [hl]
      simp
    have hget : (b :: bl.concat last).getLast? = some last := by
      rw [List.concat_eq_append, ← List.cons_append, List.getLast?_append]
      rfl
    rw [hget, if_neg (by simp)]
    simp only [List.head?_cons]
    rw [hlast, List.drop_zero]

theorem consume_remaining {d : FdDesc blocklen} {b : WriteBlock blocklen}
    {rest : List (WriteBlock blocklen)} (hl : d.wbList = b :: rest) (m : ℕ) :
    d.remaining = b.left.take m ++ (d.consume m).remaining := by
  unfold FdDesc.consume FdDesc.remaining
  rw [hl]
  simp only [List.map_cons, List.flatten_cons]
  by_cases hall : b.head + m ≥ b.tail
  · have hlen : b.left.length ≤ m := by
      unfold WriteBlock.left
      rw [List.length_drop]
      unfold WriteBlock.tail at hall
      omega
    rw [dif_pos hall, List.take_of_length_le hlen]
  · rw [dif_neg hall]
    simp only [List.map_cons, List.flatten_cons]
    rw [← List.append_assoc]
    congr 1
    unfold WriteBlock.left
    rw [← List.drop_drop, List.take_append_drop]

theorem consume_tidy {d : FdDesc blocklen} (h : d.Tidy) (m : ℕ) : (d.consume m).Tidy := by
  unfold FdDesc.Tidy FdDesc.consume at *
  cases hl : d.wbList with
  | nil =>
    simp only
    rw [hl]
    intro b hb
    cases hb
  | cons b rest =>
    rw [hl] at h
    simp only
    split
    · intro c hc
      exact h c (List.mem_of_mem_tail hc)
    · exact h

theorem consume_ghosts (d : FdDesc blocklen) (m : ℕ) : (d.consume m).input = d.input ∧
    (d.consume m).accepted = d.accepted ∧ (d.consume m).decrypted = d.decrypted := by
  unfold FdDesc.consume
  split
  · exact ⟨rfl, rfl, rfl⟩
  · split
    · exact ⟨rfl, rfl, rfl⟩
    · exact ⟨rfl, rfl, rfl⟩

theorem readIn_ghosts (d : FdDesc blocklen) (bs : List UInt8) : (d.readIn bs).input = d.input ∧
    (d.readIn bs).accepted = d.accepted ∧ (d.readIn bs).decrypted = d.decrypted := by
  unfold FdDesc.readIn
  split
  · exact ⟨rfl, rfl, rfl⟩
  · exact ⟨rfl, rfl, rfl⟩

/-- What a write passes on is what is due, exactly under the condition. -/
theorem writeFrom_take_iff {d : FdDesc blocklen} (h : d.Tidy) {b : WriteBlock blocklen}
    {rest : List (WriteBlock blocklen)} (hl : d.wbList = b :: rest) (k : ℕ) :
    d.writeFrom.take (min k (b.tail - b.head)) = b.left.take (min k (b.tail - b.head)) ↔
      d.WriteOk k := by
  have hok : d.WriteOk k ↔ rest = [] ∨ b.head = 0 ∨
      b.data.take (min k (b.tail - b.head)) = b.left.take (min k (b.tail - b.head)) := by
    unfold FdDesc.WriteOk
    rw [hl]
    simp
  rw [hok, writeFrom_eq h hl]
  by_cases hrest : rest = []
  · simp [hrest]
  · rw [if_neg hrest]
    constructor
    · intro heq
      exact .inr (.inr heq)
    · intro hor
      rcases hor with hr | hz | heq
      · exact absurd hr hrest
      · unfold WriteBlock.left
        rw [hz, List.drop_zero]
      · exact heq

end Blocks

section Steps
variable {blocklen : ℕ} {s s' : Proxy blocklen}

/-! ## Steps -/

def FdDesc.Sound (d : FdDesc blocklen) : Prop := d.Tidy ∧ Faithful d

/-- What is wrong with no step but a `tlsWrite` that takes bytes. -/
def Ok (s : Proxy blocklen) (a : Act) : Prop :=
  match s.pc, a with
  | .writing w _, .tlsWrite (.wrote k) => (s.desc w).WriteOk k
  | _, _ => True

instance (s : Proxy blocklen) (a : Act) : Decidable (Ok s a) := by
  unfold Ok
  split
  · infer_instance
  · infer_instance

/-- The flags of a half may have changed. -/
structure Kept (d d' : FdDesc blocklen) : Prop where
  wbList : d'.wbList = d.wbList
  input : d'.input = d.input
  accepted : d'.accepted = d.accepted
  decrypted : d'.decrypted = d.decrypted

theorem FdDesc.Sound.kept {d d' : FdDesc blocklen} (hd : d.Sound) (h : Kept d d') :
    d'.Sound := by
  obtain ⟨htidy, hf⟩ := hd
  constructor
  · unfold FdDesc.Tidy
    rw [h.wbList]
    exact htidy
  · apply faithful_of_stream
    · rw [h.accepted, h.decrypted, hf.same]
    · unfold FdDesc.remaining
      rw [h.wbList, h.accepted, h.input]
      exact hf.stream

theorem Proxy.set_desc (w : Half) (d : FdDesc blocklen) :
    (s.set w d).desc = Function.update s.desc w d := rfl

theorem writeReturns_desc (w : Half) (fromRead : Bool) :
    (writeReturns w fromRead s).desc = s.desc := rfl

theorem set_forall {P : FdDesc blocklen → Prop} {w : Half} {d : FdDesc blocklen}
    (hs : ∀ h, P (s.desc h)) : (∀ h, P ((s.set w d).desc h)) ↔ P d := by
  rw [Proxy.set_desc]
  constructor
  · intro hall
    have := hall w
    rwa [Function.update_self] at this
  · intro hd h
    by_cases hw : h = w
    · rw [hw, Function.update_self]
      exact hd
    · rw [Function.update_of_ne hw]
      exact hs h

theorem sound_shutdown (w : Half) (hs : ∀ h, (s.desc h).Sound) :
    ∀ h, ((proxyShutdown w s).desc h).Sound := by
  have hfirst : ∀ h, ((s.set w { s.desc w with closed := true }).desc h).Sound :=
    (set_forall hs).2 ((hs w).kept ⟨rfl, rfl, rfl, rfl⟩)
  unfold proxyShutdown
  exact (set_forall hfirst).2 ((hs w.other).kept ⟨rfl, rfl, rfl, rfl⟩)

theorem sound_proxyWrite (w : Half) (fromRead : Bool) (hs : ∀ h, (s.desc h).Sound) :
    ∀ h, ((proxyWrite w fromRead s).desc h).Sound := by
  unfold proxyWrite
  split
  · exact hs
  · rw [writeReturns_desc]
    exact (set_forall hs).2 ((hs w).kept ⟨rfl, rfl, rfl, rfl⟩)

theorem sound_addSpace {d : FdDesc blocklen} (h : d.Sound) : d.addSpace.Sound := by
  refine ⟨addSpace_tidy h.1, faithful_of_stream h.2.same ?_⟩
  rw [addSpace_remaining]
  exact h.2.stream

theorem sound_readIn {d : FdDesc blocklen} (h : d.Sound) {bs : List UInt8} (hne : bs ≠ [])
    (hlen : bs.length ≤ d.readAvail) :
    (({ d with input := d.input ++ bs } : FdDesc blocklen).readIn bs).Sound := by
  have htidy : ({ d with input := d.input ++ bs } : FdDesc blocklen).Tidy := h.1
  obtain ⟨hi, ha, hd⟩ := readIn_ghosts ({ d with input := d.input ++ bs } : FdDesc blocklen) bs
  have hrem := readIn_remaining ({ d with input := d.input ++ bs } : FdDesc blocklen) bs hne hlen
  refine ⟨readIn_tidy bs htidy, faithful_of_stream ?_ ?_⟩
  · rw [ha, hd]
    exact h.2.same
  · rw [ha, hi, hrem, ← List.append_assoc]
    show d.accepted ++ d.remaining ++ bs = d.input ++ bs
    rw [h.2.stream]

theorem sound_readRound (r : Half) (res : ReadRes) (hs : ∀ h, (s.desc h).Sound) :
    ∀ h, ((readRound r res s).desc h).Sound := by
  unfold readRound
  simp only
  have hspace : (if (s.desc r.other).readAvail = 0 then (s.desc r.other).addSpace
      else s.desc r.other).Sound := by
    split
    · exact sound_addSpace (hs r.other)
    · exact hs r.other
  generalize (if (s.desc r.other).readAvail = 0 then (s.desc r.other).addSpace
      else s.desc r.other) = d at hspace ⊢
  have hset := (set_forall (w := r.other) (d := d) hs).2 hspace
  cases res with
  | error => exact sound_shutdown r hset
  | read bs =>
    simp only
    split
    · exact hset
    · next hne =>
      apply sound_proxyWrite
      apply (set_forall hset).2
      apply sound_readIn hspace
      · intro hnil
        exact hne (by rw [hnil]; rfl)
      · exact List.length_take_le _ _

/-- A write that took `m` bytes: with the list behind them all is in place exactly if they were the
next ones. -/
theorem sound_consume_iff {d : FdDesc blocklen} (h : d.Sound) {b : WriteBlock blocklen}
    {rest : List (WriteBlock blocklen)} (hl : d.wbList = b :: rest) (m : ℕ) (bs : List UInt8) :
    (({ d with accepted := d.accepted ++ bs, decrypted := d.decrypted ++ bs } :
      FdDesc blocklen).consume m).Sound ↔ bs = b.left.take m := by
  let d' : FdDesc blocklen :=
    { d with accepted := d.accepted ++ bs, decrypted := d.decrypted ++ bs }
  show (d'.consume m).Sound ↔ _
  obtain ⟨hi, ha, hd⟩ := consume_ghosts d' m
  have hrem : d.remaining = b.left.take m ++ (d'.consume m).remaining :=
    consume_remaining (d := d') hl m
  have hstream := h.2.stream
  rw [hrem] at hstream
  constructor
  · intro hsound
    have hgot := hsound.2.stream
    rw [ha, hi] at hgot
    have heq : d.accepted ++ (bs ++ (d'.consume m).remaining) =
        d.accepted ++ (b.left.take m ++ (d'.consume m).remaining) := by
      rw [← List.append_assoc, hstream]
      exact hgot
    exact List.append_cancel_right (List.append_cancel_left heq)
  · intro hbs
    refine ⟨consume_tidy (d := d') h.1 m, faithful_of_stream ?_ ?_⟩
    · rw [ha, hd]
      show d.accepted ++ bs = d.decrypted ++ bs
      rw [h.2.same]
    · rw [ha, hi]
      show d.accepted ++ bs ++ _ = d.input
      rw [hbs, List.append_assoc, hstream]

theorem writeOk_of_none {d : FdDesc blocklen} {k : ℕ} (h : min k d.writeAvail = 0) :
    d.WriteOk k := by
  unfold FdDesc.WriteOk
  intro b hb
  right
  right
  have hm : min k (b.tail - b.head) = 0 := by
    unfold FdDesc.writeAvail at h
    cases hl : d.wbList with
    | nil =>
      rw [hl] at hb
      cases hb
    | cons c rest =>
      rw [hl] at h hb
      cases hb
      exact h
  rw [hm]
  rfl

theorem sound_writeRound_iff (w : Half) (fromRead : Bool) (res : WriteRes)
    (hs : ∀ h, (s.desc h).Sound) : (∀ h, ((writeRound w fromRead res s).desc h).Sound) ↔
      ∀ k, res = .wrote k → (s.desc w).WriteOk k := by
  unfold writeRound
  simp only
  split
  · next hzero =>
    rw [writeReturns_desc]
    refine iff_of_true ((set_forall hs).2 ((hs w).kept ⟨rfl, rfl, rfl, rfl⟩)) ?_
    intro k _
    exact writeOk_of_none (by rw [hzero, Nat.min_zero])
  · next hpos =>
    cases res with
    | error =>
      refine iff_of_true (sound_shutdown w hs) ?_
      intro k hk
      cases hk
    | wrote k =>
      simp only [WriteRes.wrote.injEq, forall_eq']
      split
      · next hnone =>
        rw [writeReturns_desc]
        exact iff_of_true ((set_forall hs).2 ((hs w).kept ⟨rfl, rfl, rfl, rfl⟩))
          (writeOk_of_none hnone)
      · obtain ⟨b, rest, hl⟩ : ∃ b rest, (s.desc w).wbList = b :: rest := by
          cases hl : (s.desc w).wbList with
          | nil => simp [FdDesc.writeAvail, hl] at hpos
          | cons b rest => exact ⟨b, rest, rfl⟩
        have havail : (s.desc w).writeAvail = b.tail - b.head := by
          unfold FdDesc.writeAvail
          rw [hl]
        rw [set_forall hs, sound_consume_iff (hs w) hl, havail]
        exact writeFrom_take_iff (hs w).1 hl k

theorem sound_step_iff {a : Act} (hs : ∀ h, (s.desc h).Sound) (hstep : step s a = some s') :
    (∀ h, (s'.desc h).Sound) ↔ Ok s a := by
  unfold step at hstep
  unfold Ok
  split at hstep
  · next h hpc =>
    cases hstep
    rw [hpc]
    exact iff_of_true ((set_forall hs).2 ((hs h).kept ⟨rfl, rfl, rfl, rfl⟩)) trivial
  · next r hpc =>
    obtain ⟨-, hstep⟩ := Option.ite_none_right_eq_some.1 hstep
    cases hstep
    rw [hpc]
    exact iff_of_true hs trivial
  · next w hpc =>
    obtain ⟨-, hstep⟩ := Option.ite_none_right_eq_some.1 hstep
    cases hstep
    rw [hpc]
    exact iff_of_true (sound_proxyWrite w false hs) trivial
  · next r res hpc =>
    cases hstep
    rw [hpc]
    exact iff_of_true (sound_readRound r res hs) trivial
  · next w fromRead res hpc =>
    cases hstep
    rw [hpc, sound_writeRound_iff w fromRead res hs]
    cases res with
    | error => simp
    | wrote k => simp
  · cases hstep

/-! ## Runs -/

theorem sound_start (h : Half) : ((start : Proxy blocklen).desc h).Sound := by
  refine ⟨?_, faithful_of_stream rfl rfl⟩
  intro b hb
  cases hb

/-- In every run all of whose writes meet the condition both directions are faithful at every
moment. -/
theorem proxy_faithful (hr : ReachIf (system blocklen) Ok s) (h : Half) : Faithful (s.desc h) := by
  have hstep : ∀ (s : Proxy blocklen) a s', (∀ h, (s.desc h).Sound) → Ok s a →
      (system blocklen).step s a = some s' → ∀ h, (s'.desc h).Sound := by
    intro s a s' hs hok hstep
    exact (sound_step_iff hs hstep).2 hok
  have hall := ReachIf.invariant (I := fun s : Proxy blocklen => ∀ h, (s.desc h).Sound)
    sound_start hstep hr
  exact (hall h).2

/-- Two blocks: the first is full before anything goes out, then all of it and a byte of the second
do. -/
theorem proxy_faithful_blocks : ∃ s, ReachIf (system 4) Ok s ∧
    (s.desc .client).accepted = [1, 2, 3, 4, 5] ∧ (s.desc .client).remaining = [6] ∧
    Faithful (s.desc .client) := by
  have hrun : runIf (system 4) (fun s a => decide (Ok s a)) start
      [.established .server, .readReady .server, .tlsRead (.read [1, 2, 3, 4]),
        .tlsRead (.read [5, 6]), .tlsRead (.read []), .established .client, .writeReady .client,
        .tlsWrite (.wrote 9), .tlsWrite (.wrote 1), .tlsWrite (.wrote 0)] = some _ := rfl
  have hreach := ReachIf.runIf (fun _ _ => of_decide_eq_true) .init hrun
  exact ⟨_, hreach, rfl, rfl, proxy_faithful hreach .client⟩

/-- A full block of which one byte is taken, and a byte in a block behind it: the first byte goes
out once more. -/
theorem first_byte_again (x y b z : UInt8) (bs : List UInt8) (hlen : bs.length + 3 = blocklen) :
    ∃ s : Proxy blocklen, Reach (system blocklen) s ∧ (s.desc .client).accepted = [x, x] ∧
      (s.desc .client).input = x :: y :: b :: bs ++ [z] := by
  subst hlen
  have hrun : ∃ s, run (system (bs.length + 3)) start [.established .client, .established .server,
      .readReady .server, .tlsRead (.read (x :: y :: b :: bs)), .tlsWrite (.wrote 1),
      .tlsWrite (.wrote 0), .tlsRead (.read [z]), .tlsWrite (.wrote 1)] = some s ∧
      (s.desc .client).accepted = [x, x] ∧ (s.desc .client).input = x :: y :: b :: bs ++ [z] := by
    simp [run, runIf, system, step, start, Proxy.set, readRound, FdDesc.readAvail, FdDesc.addSpace,
      FdDesc.readIn, WriteBlock.new, WriteBlock.fill, WriteBlock.tail, proxyWrite, writeRound,
      FdDesc.writeAvail, FdDesc.writeFrom, FdDesc.consume, writeReturns, Half.other]
  obtain ⟨s, hs, h⟩ := hrun
  exact ⟨s, Reach.run .init hs, h⟩

theorem proxy_not_faithful : ¬ ∀ (s : Proxy kdataDecryptedMaxData),
    Reach (system kdataDecryptedMaxData) s → ∀ h, Faithful (s.desc h) := by
  intro hall
  obtain ⟨bs, hlen⟩ : ∃ bs : List UInt8, bs.length + 3 = kdataDecryptedMaxData := by
    refine ⟨List.replicate 4013 0, ?_⟩
    rw [List.length_replicate]
    rfl
  obtain ⟨s, hreach, haccepted, hinput⟩ := first_byte_again 1 0 0 5 bs hlen
  have hpre := (hall s hreach .client).pre
  rw [haccepted, hinput] at hpre
  simp at hpre

end Steps

end Netp.Tlsproxy
