import Netp.Kring.DataOwn

/-! # Delivery by the data ring while nobody is overrun

One writer, readers that enter and leave. As long as fewer than half the ring is between a reader
and the writer, message `k` is in page `k % kdataNpages`: the writer finds the next page free and
skips nothing, and a reader looks for its next message in the right place. What a reader receives is
then the messages written since it entered, one by one and in order (`data_delivers`), provided
that none of its compare-and-swaps in `kdata_advance_rhead` fails. A reader whose claim of a page
meets the claim of another reader goes on to the next page and loses the message
(`message_lost`).
-/

namespace Netp.Kring.Data
open Netp.Lib
set_option autoImplicit false

/-! ## Pages by the number of their message -/

/-- The page of the last of `k` messages. -/
def pageOf (k : ℕ) : ℕ := (k + kdataNpages - 1) % kdataNpages

theorem kdataNext_pageOf (k : ℕ) : kdataNext (pageOf k) = k % kdataNpages := by
  unfold kdataNext pageOf kdataNpages
  split <;> omega

theorem pageOf_succ (k : ℕ) : pageOf (k + 1) = k % kdataNpages := by
  unfold pageOf kdataNpages
  omega

theorem pageOf_ne {k n : ℕ} (h : k < n) (hn : n < k + kdataNpages) : pageOf k ≠ pageOf n := by
  unfold pageOf kdataNpages at *
  omega

theorem mod_ne {k n : ℕ} (h : k < n) (hn : n < k + kdataNpages) :
    k % kdataNpages ≠ n % kdataNpages := by
  unfold kdataNpages at *
  omega

theorem pageOf_ne_mod {k n : ℕ} (h : k ≤ n) (hn : n + 1 < k + kdataNpages) :
    pageOf k ≠ n % kdataNpages := by
  unfold pageOf kdataNpages at *
  omega

section Order
variable {W : ℕ} {β : Type}

/-- The reader takes part: from the load of `whead` in `kdata_prep_enter` to the release in
`kdata_destruct`. -/
def attached : ReaderPc → Bool
  | .detached | .enterLoadWhead | .leaveConsumed => false
  | _ => true

/-- The reader has claimed a page that `kdata_next_generic` has not returned yet. -/
def claiming : ReaderPc → Bool
  | .nextStoreRhead _ _ | .nextLoadEntered _ _ | .relRead _ _ | .relCas _ _ _ | .relConsumed _
  | .nextStoreEntered _ | .nextReturn _ => true
  | _ => false

/-- How many of the ring's messages came before the next one reader `r` is to return. -/
def position (s : State W β) (r : ReaderId) : ℕ := s.hist.entry r + (s.hist.recv r).length

/-- Fewer than half the ring's pages were written since the last message each reader has taken. -/
def noOverrun (s : State W β) : Bool :=
  decide (∀ r, attached (s.reader r) = true →
    s.hist.written.length <
      position s r + (if claiming (s.reader r) then 1 else 0) + kdataNpages / 2)

/-- The step is not a compare-and-swap of `kdata_advance_rhead` that fails. -/
def claimHolds (s : State W β) : Act W β → Bool
  | .reader r =>
      match s.reader r with
      | .advCas _ rhead desc => s.desc rhead == desc
      | _ => true
  | _ => true

/-- What reader `r` gets of the messages. -/
structure Receives (s : State W β) (r : ReaderId) : Prop where
  /-- The messages written since it entered: none missing, none twice, in order. -/
  order : (s.hist.recv r).map (Option.map Msg.data) <+:
    (s.hist.written.drop (s.hist.entry r)).map some
  /-- All of them, when `kdata_avail` says there is nothing more. -/
  all : s.reader r = .idle → s.rhead r = s.whead →
    (s.hist.recv r).map (Option.map Msg.data) = (s.hist.written.drop (s.hist.entry r)).map some
  /-- `rhead` is the page of some message up to the one of `whead`, less than a ring behind. -/
  behind : attached (s.reader r) = true → (∀ p, s.reader r ≠ .enterStoreRhead p) →
    ∃ k, s.rhead r = pageOf k ∧ s.whead = pageOf s.hist.written.length ∧
      position s r ≤ k ∧ k ≤ s.hist.written.length ∧ s.hist.written.length < k + kdataNpages

end Order

/-! ## The invariant -/

section Inv
variable {β : Type} {s s' : State 1 β}

/-- Where the writer is, with `n` messages published. -/
def WriterAt (s : State 1 β) : Prop :=
  let n := s.hist.written.length
  let last := some (⟨n, (s.writer 0).data⟩ : Msg β)
  match (s.writer 0).pc with
  | .findRead p | .findClaimCas p _ | .firstStoreWresv p | .fill p =>
      p = n % kdataNpages ∧ s.hist.filled = n
  | .secondLoadWresv p | .releaseRead p _ | .releaseCas p _ _ | .secondStoreWhead p =>
      p = n % kdataNpages ∧ s.hist.filled = n + 1 ∧ s.page p = last
  | .secondLoadWresvAgain =>
      s.wresv = n % kdataNpages ∧ s.hist.filled = n + 1 ∧ s.page (n % kdataNpages) = last
  | .findSkip _ _ _ | .findSkipStore _ _ _ _ | .findSkipCas _ _ => False
  | _ => s.hist.filled = n

/-- Where reader `r` is, with `position s r` messages behind it. -/
def ReaderAt (s : State 1 β) (r : ReaderId) : Prop :=
  let n := s.hist.written.length
  let c := position s r
  match s.reader r with
  | .detached | .enterLoadWhead | .leaveConsumed => True
  | .enterStoreRhead rhead => rhead = pageOf c ∧ c ≤ n
  | .availLoadWhead rhead => rhead = pageOf c ∧ s.rhead r = pageOf c ∧ c ≤ n
  | .nextLoadRhead => s.rhead r = pageOf c ∧ c < n
  | .advRead _ rhead | .advCas _ rhead _ | .nextStoreRhead _ rhead =>
      rhead = c % kdataNpages ∧ s.rhead r = pageOf c ∧ c < n
  | .nextLoadEntered prev rhead | .relRead prev rhead | .relCas prev rhead _ =>
      prev = pageOf c ∧ rhead = c % kdataNpages ∧ s.rhead r = pageOf (c + 1) ∧ c < n
  | .relConsumed rhead | .nextStoreEntered rhead | .nextReturn rhead =>
      rhead = c % kdataNpages ∧ s.rhead r = pageOf (c + 1) ∧ c < n
  | _ => s.rhead r = pageOf c ∧ c ≤ n

structure OrderInv (s : State 1 β) : Prop where
  whead : s.whead = pageOf s.hist.written.length
  /-- A message stays in its page until the writer comes round to it. -/
  stored : ∀ (k : ℕ) (m : β), s.hist.written[k]? = some m →
    s.hist.written.length < k + kdataNpages → s.page (k % kdataNpages) = some ⟨k, m⟩
  writer : WriterAt s
  readers : ∀ r, ReaderAt s r
  received : ∀ r, (s.hist.recv r).map (Option.map Msg.data) <+:
    (s.hist.written.drop (s.hist.entry r)).map some
  window : ∀ r, attached (s.reader r) = true →
    s.hist.written.length < position s r + kdataNpages

theorem noOverrun_lt (h : noOverrun s = true) {r : ReaderId}
    (hr : attached (s.reader r) = true) :
    s.hist.written.length + 1 < position s r + kdataNpages - 1 := by
  unfold noOverrun at h
  have := of_decide_eq_true h r hr
  unfold kdataNpages at *
  split at this <;> omega

theorem bitPages_window {r : ReaderId} (hi : ReaderFacts s r) (ha : ReaderAt s r) {p : ℕ}
    (hp : p ∈ bitPages s r) : attached (s.reader r) = true ∧
      (p = pageOf (position s r) ∧ position s r ≤ s.hist.written.length ∨
        p = position s r % kdataNpages ∧ position s r < s.hist.written.length) := by
  cases hpc : s.reader r
  all_goals simp only [bitPages, hpc] at hp
  all_goals simp only [ReaderFacts, hpc] at hi
  all_goals simp only [ReaderAt, hpc] at ha
  all_goals simp only [attached, true_and]
  all_goals cases he : s.entered r
  all_goals simp_all
  all_goals omega

theorem next_free (hi : DescInv s) (h : OrderInv s) (hno : noOverrun s = true) (r : ReaderId) :
    readerBit r (s.desc (s.hist.written.length % kdataNpages)) = false := by
  refine Bool.eq_false_iff.2 fun hbit => ?_
  obtain ⟨hatt, ⟨hp, hle⟩ | ⟨hp, hlt⟩⟩ :=
    bitPages_window (hi.readers r) (h.readers r) (hi.bits r _ hbit)
  · have := noOverrun_lt hno hatt
    exact pageOf_ne_mod hle (by omega) hp.symm
  · have := noOverrun_lt hno hatt
    exact mod_ne hlt (by omega) hp.symm

theorem ReaderAt.frame {r : ReaderId} (h : ReaderAt s r) (hpc : s'.reader r = s.reader r)
    (hrhead : s'.rhead r = s.rhead r) (hpos : position s' r = position s r)
    (hn : s.hist.written.length ≤ s'.hist.written.length) : ReaderAt s' r := by
  unfold ReaderAt at h ⊢
  rw [hpc, hrhead, hpos]
  cases hq : s.reader r
  all_goals simp only [hq] at h ⊢
  all_goals refine ⟨?_, ?_⟩
  all_goals omega

theorem position_congr {r : ReaderId} (he : s'.hist.entry r = s.hist.entry r)
    (hr : s'.hist.recv r = s.hist.recv r) : position s' r = position s r := by
  unfold position
  rw [he, hr]

/-! ## Steps of the writer -/

/-- A step of the writer that publishes nothing and stores no message. -/
theorem OrderInv.move (h : OrderInv s) (hf : WriterFrame 0 s s') (hwhead : s'.whead = s.whead)
    (hpage : s'.page = s.page) (hwritten : s'.hist.written = s.hist.written)
    (hw : WriterAt s') : OrderInv s' where
  whead := by rw [hwhead, hwritten, h.whead]
  stored k m := by
    rw [hwritten, hpage]
    exact h.stored k m
  writer := hw
  readers r := (h.readers r).frame (by rw [hf.reader]) (by rw [hf.rhead])
    (position_congr (by rw [hf.entry]) (by rw [hf.recv])) (by rw [hwritten])
  received r := by
    rw [hwritten, hf.entry, hf.recv]
    exact h.received r
  window r := by
    have hpos : position s' r = position s r :=
      position_congr (by rw [hf.entry]) (by rw [hf.recv])
    rw [hwritten, hf.reader, hpos]
    exact h.window r

/-- The message goes into the page after the last one; no message still to be read is there. -/
theorem OrderInv.fill (h : OrderInv s) {p : ℕ} (hpc : (s.writer 0).pc = .fill p)
    (hs : writerStep s 0 = some s') : OrderInv s' := by
  have hf := writerStep_frame hs
  have hw := h.writer
  simp only [WriterAt, hpc] at hw
  obtain ⟨rfl, hfilled⟩ := hw
  simp only [writerStep, hpc] at hs
  cases hs
  refine ⟨h.whead, ?_, ?_, ?_, h.received, h.window⟩
  · intro k m hk hn
    have hlt : k < s.hist.written.length := (List.getElem?_eq_some_iff.1 hk).1
    simp only [State.setWriter]
    rw [Function.update_of_ne (mod_ne hlt hn)]
    exact h.stored k m hk hn
  · simp [WriterAt, State.setWriter, hfilled]
  · intro r
    exact (h.readers r).frame rfl rfl rfl (le_refl _)

/-- The store of `head->whead` publishes the message in the page after the last one. -/
theorem OrderInv.publish (h : OrderInv s) (hno : noOverrun s = true) {p : ℕ}
    (hpc : (s.writer 0).pc = .secondStoreWhead p) (hs : writerStep s 0 = some s') :
    OrderInv s' := by
  have hw := h.writer
  simp only [WriterAt, hpc] at hw
  obtain ⟨rfl, hfilled, hpage⟩ := hw
  simp only [writerStep, hpc] at hs
  cases hs
  refine ⟨?_, ?_, ?_, ?_, ?_, ?_⟩
  · simp [State.setWriter, pageOf_succ]
  · intro k m hk hn
    simp only [State.setWriter, List.length_append, List.length_singleton] at hk hn ⊢
    rw [List.getElem?_append] at hk
    split at hk
    · exact h.stored k m hk (by omega)
    · next hge =>
      obtain ⟨hz, hm⟩ := List.getElem?_eq_some_iff.1 hk
      simp only [List.length_singleton] at hz
      obtain rfl : k = s.hist.written.length := by omega
      rw [hpage]
      simp only [List.getElem_singleton] at hm
      rw [hm]
  · simp [WriterAt, State.setWriter, hfilled]
  · intro r
    exact (h.readers r).frame rfl rfl rfl (by simp [State.setWriter])
  · intro r
    refine (h.received r).trans ?_
    simp only [State.setWriter]
    rw [List.drop_append, List.map_append]
    exact List.prefix_append _ _
  · intro r hatt
    have := noOverrun_lt hno (r := r) hatt
    simp only [State.setWriter, List.length_append, List.length_singleton]
    change _ < position s r + kdataNpages
    omega

theorem orderInv_writer (hi : DescInv s) (ho : OwnInv s) (hwr : WresvFacts s) (h : OrderInv s)
    (hno : noOverrun s = true) (hs : writerStep s 0 = some s') : OrderInv s' := by
  have hf := writerStep_frame hs
  have hw := h.writer
  have hrel := ho.release 0
  cases hpc : (s.writer 0).pc
  case fill p => exact h.fill hpc hs
  case secondStoreWhead p => exact h.publish hno hpc hs
  all_goals simp only [WriterAt, hpc] at hw
  all_goals simp only [WresvFacts, hpc] at hwr
  all_goals simp only [ReleaseFacts, hpc] at hrel
  all_goals simp only [writerStep, hpc] at hs
  all_goals try split at hs
  all_goals cases hs
  case findRead p =>
    obtain ⟨rfl, hfilled⟩ := hw
    have hbits := next_free hi h hno
    have hown : writerOwned (s.desc (s.hist.written.length % kdataNpages)) = false := by
      refine Bool.eq_false_iff.2 fun hp => ?_
      obtain ⟨w, hw⟩ := ho.owner _ hp
      obtain rfl : w = 0 := Subsingleton.elim _ _
      rw [hpc] at hw
      cases hw
    refine h.move hf rfl rfl rfl ?_
    obtain ⟨_, hs | ⟨r, hr⟩⟩ | ⟨_, hw⟩ | ⟨he, _⟩ :=
      findTest_cases (s.hist.written.length % kdataNpages)
        (s.desc (s.hist.written.length % kdataNpages))
    · obtain ⟨r, hr⟩ := hi.marked _ hs
      rw [hbits r] at hr
      cases hr
    · rw [hbits r] at hr
      cases hr
    · rw [hown] at hw
      cases hw
    · simp [WriterAt, State.setWriter, he, hfilled]
  case findLoadWhead =>
    refine h.move hf rfl rfl rfl ?_
    simp [WriterAt, State.setWriter, hw, h.whead, kdataNext_pageOf]
  case secondLoadWresv p | releaseRead p q | releaseCas.isTrue p q d _ =>
    obtain ⟨rfl, hfilled, hpage⟩ := hw
    refine h.move hf rfl rfl rfl ?_
    simp [WriterAt, State.setWriter, State.setDesc, hfilled, hpage, hwr]
  all_goals refine h.move hf rfl rfl rfl ?_
  all_goals simp_all [WriterAt, State.setWriter, State.setDesc, State.kill]

/-! ## Steps of a reader -/

theorem OrderInv.reader {r : ReaderId} (h : OrderInv s) (hf : ReaderFrame r s s')
    (hr : ReaderAt s' r)
    (hrecv : (s'.hist.recv r).map (Option.map Msg.data) <+:
      (s.hist.written.drop (s'.hist.entry r)).map some)
    (hwin : attached (s'.reader r) = true → s.hist.written.length < position s' r + kdataNpages) :
    OrderInv s' where
  whead := by rw [hf.whead, hf.written, h.whead]
  stored k m := by
    rw [hf.written, hf.page]
    exact h.stored k m
  writer := by
    have hw := h.writer
    unfold WriterAt at hw ⊢
    rw [hf.writer, hf.written, hf.page, hf.filled, hf.wresv]
    exact hw
  readers q := by
    by_cases hq : q = r
    · subst hq
      exact hr
    · obtain ⟨h1, h2, _, h4, h5⟩ := hf.others q hq
      exact (h.readers q).frame h1 h2 (position_congr h4 h5) (by rw [hf.written])
  received q := by
    rw [hf.written]
    by_cases hq : q = r
    · subst hq
      exact hrecv
    · obtain ⟨_, _, _, h4, h5⟩ := hf.others q hq
      rw [h4, h5]
      exact h.received q
  window q := by
    rw [hf.written]
    by_cases hq : q = r
    · subst hq
      exact hwin
    · obtain ⟨h1, _, _, h4, h5⟩ := hf.others q hq
      rw [h1, position_congr h4 h5]
      exact h.window q

/-- A step of a reader that returns no message and does not enter. -/
theorem OrderInv.readerMove {r : ReaderId} (h : OrderInv s) (hf : ReaderFrame r s s')
    (hentry : s'.hist.entry r = s.hist.entry r) (hrecv : s'.hist.recv r = s.hist.recv r)
    (hatt : attached (s'.reader r) = true → attached (s.reader r) = true)
    (hr : ReaderAt s' r) : OrderInv s' := by
  refine h.reader hf hr ?_ fun ha => ?_
  · rw [hentry, hrecv]
    exact h.received r
  · rw [position_congr hentry hrecv]
    exact h.window r (hatt ha)

/-- The page of the reader's next message is not the one the writer fills. -/
theorem next_readable (ho : OwnInv s) (h : OrderInv s) {k : ℕ}
    (hk : k < s.hist.written.length) (hn : s.hist.written.length < k + kdataNpages) :
    writerOwned (s.desc (k % kdataNpages)) = false := by
  refine Bool.eq_false_iff.2 fun hp => ?_
  obtain ⟨w, hw⟩ := ho.owner _ hp
  obtain rfl : w = 0 := Subsingleton.elim _ _
  have ha := h.writer
  unfold WriterAt at ha
  cases hpc : (s.writer 0).pc
  all_goals rw [hpc] at hw
  all_goals simp only [own] at hw
  all_goals cases hw
  all_goals simp only [hpc] at ha
  all_goals exact mod_ne hk hn ha.1

theorem prefix_snoc {γ : Type} {l L : List γ} {x : γ} (h : l <+: L) (hx : L[l.length]? = some x) :
    l ++ [x] <+: L := by
  obtain ⟨t, rfl⟩ := h
  rw [List.getElem?_append_right (le_refl _), Nat.sub_self] at hx
  cases t with
  | nil => simp at hx
  | cons y t =>
    simp only [List.getElem?_cons_zero, Option.some.injEq] at hx
    subst hx
    exact ⟨t, by simp⟩

theorem orderInv_readerStep {r : ReaderId} (ho : OwnInv s) (hfacts : ReaderFacts s r)
    (h : OrderInv s) (hclaim : claimHolds s (.reader r) = true)
    (hs : readerStep s r = some s') : OrderInv s' := by
  have hf := readerStep_frame hs
  have ha := h.readers r
  cases hpc : s.reader r
  all_goals simp only [ReaderAt, hpc] at ha
  all_goals simp only [ReaderFacts, hpc] at hfacts
  all_goals simp only [claimHolds, hpc] at hclaim
  all_goals simp only [readerStep, hpc] at hs
  all_goals try split at hs
  all_goals cases hs
  case enterLoadWhead =>
    refine h.reader hf ?_ ?_ fun _ => ?_
    · simp [ReaderAt, State.setReader, position, h.whead]
    · simp [State.setReader]
    · simp only [State.setReader, position, Function.update_self, List.length_nil]
      unfold kdataNpages
      omega
  case availLoadWhead.isTrue rhead hne =>
    obtain ⟨hloaded, hrhead, hle⟩ := ha
    have hlt : position s r ≠ s.hist.written.length := by
      intro he
      rw [hloaded, he, ← h.whead] at hne
      exact hne rfl
    refine h.readerMove hf rfl rfl (by simp [hpc, attached]) ?_
    simp only [ReaderAt, State.setReader, Function.update_self]
    exact ⟨hrhead, by change position s r < _; omega⟩
  case advRead.isFalse prev q hw =>
    obtain ⟨rfl, hrhead, hlt⟩ := ha
    rw [and_writerOwned] at hw
    exact absurd (next_readable ho h hlt (h.window r (by rw [hpc]; rfl))) hw
  case advCas.isFalse prev q d hne =>
    exact absurd (by simpa using hclaim) hne
  case nextReturn q =>
    obtain ⟨rfl, hrhead, hlt⟩ := ha
    obtain ⟨m, hm⟩ : ∃ m, s.hist.written[position s r]? = some m :=
      ⟨_, List.getElem?_eq_getElem hlt⟩
    have hpage := h.stored _ m hm (h.window r (by rw [hpc]; rfl))
    have hpos : position ({ s with hist := { s.hist with
        recv := Function.update s.hist.recv r (s.hist.recv r ++ [s.page
          (position s r % kdataNpages)]) } }.setReader r .idle) r = position s r + 1 := by
      simp [position, State.setReader]
      omega
    refine h.reader hf ?_ ?_ fun _ => ?_
    · simp only [ReaderAt, State.setReader, Function.update_self]
      exact ⟨hpos ▸ hrhead, hpos ▸ hlt⟩
    · simp only [State.setReader, Function.update_self, List.map_append, List.map_cons,
        List.map_nil, hpage, Option.map_some]
      refine prefix_snoc (h.received r) ?_
      rw [List.length_map, List.getElem?_map, List.getElem?_drop]
      change Option.map some (s.hist.written[position s r]?) = _
      rw [hm]
      rfl
    · have := h.window r (by rw [hpc]; rfl)
      rw [hpos]
      omega
  all_goals refine h.readerMove hf rfl rfl (by simp [hpc, attached, State.setReader]) ?_
  all_goals simp_all [ReaderAt, State.setReader, State.setDesc, position, pageOf_succ,
    kdataNext_pageOf]

theorem orderInv_step {a : Act 1 β} (hi : DescInv s) (ho : OwnInv s) (hwr : WresvFacts s)
    (h : OrderInv s) (hno : noOverrun s = true) (hclaim : claimHolds s a = true)
    (hs : step s a = some s') : OrderInv s' := by
  cases a with
  | start w m =>
    obtain ⟨hpc, rfl⟩ := start_eq hs
    obtain rfl : w = 0 := Subsingleton.elim _ _
    have hw := h.writer
    simp only [WriterAt, hpc] at hw
    exact h.move (start_frame 0 _) rfl rfl rfl (by simpa [WriterAt] using hw)
  | writer w =>
    obtain rfl : w = 0 := Subsingleton.elim _ _
    exact orderInv_writer hi ho hwr h hno hs
  | attach r =>
    obtain ⟨hpc, rfl⟩ := attach_eq hs
    refine h.readerMove (setReader_frame r _) rfl rfl ?_ ?_
    · simp [State.setReader, attached]
    · simp [ReaderAt, State.setReader]
  | detach r =>
    obtain ⟨hpc, rfl⟩ := detach_eq hs
    have hr := h.readers r
    simp only [ReaderAt, hpc] at hr
    refine h.readerMove (setReader_frame r _) rfl rfl ?_ ?_
    · simp [hpc, attached]
    · simp only [ReaderAt, State.setReader, Function.update_self]
      exact hr
  | reader r => exact orderInv_readerStep ho (hi.readers r) h hclaim hs

theorem orderInv_init [Inhabited β] : OrderInv (kdataInitControl : State 1 β) where
  whead := by
    change kdataPrev 0 = pageOf 0
    decide
  stored k m hk := by simp [kdataInitControl] at hk
  writer := by simp [WriterAt, kdataInitControl]
  readers r := trivial
  received r := by simp [kdataInitControl]
  window r h := by simp [kdataInitControl, attached] at h

theorem orderInv_run [Inhabited β]
    (h : ReachIf (ring 1 β) (fun s a => noOverrun s && claimHolds s a) s) : OrderInv s := by
  -- the invariants without a condition hold in every state on the way
  have hstep : ReachIf (ring 1 β) (fun s a => (DescInv s ∧ OwnInv s ∧ WresvFacts s) ∧
      noOverrun s = true ∧ claimHolds s a = true) s := by
    refine h.imp fun t a ht _ hok => ⟨⟨descInv_run ht, ownInv_single ht, wresvFacts_run ht⟩, ?_⟩
    exact Bool.and_eq_true_iff.1 hok
  refine hstep.invariant (I := OrderInv) orderInv_init ?_
  intro t a t' ho hok hs
  exact orderInv_step hok.1.1 hok.1.2.1 hok.1.2.2 ho hok.2.1 hok.2.2 hs

theorem OrderInv.behind (h : OrderInv s) (r : ReaderId) (hatt : attached (s.reader r) = true)
    (hne : ∀ p, s.reader r ≠ .enterStoreRhead p) :
    ∃ k, s.rhead r = pageOf k ∧ s.whead = pageOf s.hist.written.length ∧
      position s r ≤ k ∧ k ≤ s.hist.written.length ∧
        s.hist.written.length < k + kdataNpages := by
  have hr := h.readers r
  have hwin := h.window r hatt
  cases hpc : s.reader r
  all_goals simp only [ReaderAt, hpc] at hr
  all_goals simp only [attached, hpc] at hatt
  all_goals try cases hatt
  case enterStoreRhead p => exact absurd hpc (hne p)
  case nextLoadEntered | relRead | relCas =>
    exact ⟨position s r + 1, hr.2.2.1, h.whead, by omega, by omega, by omega⟩
  case relConsumed | nextStoreEntered | nextReturn =>
    exact ⟨position s r + 1, hr.2.1, h.whead, by omega, by omega, by omega⟩
  case availLoadWhead | advRead | advCas | nextStoreRhead =>
    exact ⟨position s r, hr.2.1, h.whead, le_refl _, by omega, hwin⟩
  all_goals exact ⟨position s r, hr.1, h.whead, le_refl _, by omega, hwin⟩

theorem OrderInv.receives (h : OrderInv s) (r : ReaderId) : Receives s r := by
  have hr := h.readers r
  refine ⟨h.received r, ?_, ?_⟩
  · intro hpc heq
    simp only [ReaderAt, hpc] at hr
    have hall : position s r = s.hist.written.length := by
      by_contra hne
      refine pageOf_ne (k := position s r) (n := s.hist.written.length) (by omega)
        (h.window r (by rw [hpc]; rfl)) ?_
      rw [← hr.1, ← h.whead, heq]
    refine (h.received r).eq_of_length ?_
    simp only [List.length_map, List.length_drop]
    unfold position at hall
    omega
  · exact h.behind r

end Inv

/-- **Delivery without loss** along every run in which no reader is overrun and no compare-and-swap
of `kdata_advance_rhead` fails. -/
theorem data_delivers {β : Type} [Inhabited β] (s : State 1 β)
    (h : ReachIf (ring 1 β) (fun s a => noOverrun s && claimHolds s a) s) (r : ReaderId) :
    Receives s r :=
  (orderInv_run h).receives r

/-- Two readers that take two messages one after the other. -/
def pairSchedule : List (Act 1 ℕ) :=
  enters 0 ++ enters 1 ++ .start 0 7 :: writes 0 11 ++ .start 0 8 :: writes 0 11 ++
    reads 0 9 ++ reads 1 9 ++ reads 0 12 ++ reads 1 12

theorem data_delivers_pair : ∃ s, runIf (ring 1 ℕ) (fun s a => noOverrun s && claimHolds s a)
    (ring 1 ℕ).init pairSchedule = some s ∧ s.hist.recv 1 = [some ⟨0, 7⟩, some ⟨1, 8⟩] ∧
      Receives s 1 := by
  have h : ((runIf (ring 1 ℕ) (fun s a => noOverrun s && claimHolds s a) (ring 1 ℕ).init
      pairSchedule).map fun s => s.hist.recv 1) = some [some ⟨0, 7⟩, some ⟨1, 8⟩] := by
    rfl
  obtain ⟨s, hs, hrecv⟩ := Option.map_eq_some_iff.1 h
  exact ⟨s, hs, hrecv, data_delivers s (ReachIf.runIf (fun _ _ h => h) .init hs) 1⟩

/-- Reader 0 loads the descriptor of page 0, reader 1 takes that page, and reader 0 goes on to
page 1. -/
def raceSchedule : List (Act 1 ℕ) :=
  enters 0 ++ enters 1 ++ .start 0 7 :: writes 0 11 ++ .start 0 8 :: writes 0 11 ++
    reads 0 4 ++ reads 1 9 ++ reads 0 7

theorem message_lost : ∃ s : State 1 ℕ,
    ReachIf (ring 1 ℕ) (fun s _ => noOverrun s) s ∧ ¬ Receives s 0 := by
  have h : ((runIf (ring 1 ℕ) (fun s _ => noOverrun s) (ring 1 ℕ).init raceSchedule).map fun s =>
      (s.hist.recv 0, s.hist.written, s.hist.entry 0)) =
      some ([some ⟨1, 8⟩], [7, 8], 0) := rfl
  obtain ⟨s, hs, hf⟩ := Option.map_eq_some_iff.1 h
  refine ⟨s, ReachIf.runIf (fun _ _ h => h) .init hs, fun hr => ?_⟩
  simp only [Prod.mk.injEq] at hf
  obtain ⟨hrecv, hwritten, hentry⟩ := hf
  have := hr.order
  rw [hrecv, hwritten, hentry] at this
  simp at this

end Netp.Kring.Data
