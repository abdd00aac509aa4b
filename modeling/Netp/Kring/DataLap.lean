import Netp.Kring.DataSolo
import Netp.Kring.DataOrder

/-! # Delivery by the data ring when readers are lapped

One writer that may lap any reader. Pages that a reader has are passed over and keep their old
message, so the order of the messages along the ring is only that of the pages that are *live*:
published and neither passed over nor taken since. From the page after `whead` round to `whead`
their messages are in the order of writing, and pages the writer has passed in its search are not
live (`LapInv`). Hence a reader whose every claim is of a live page between its `rhead` and `whead`
(`freshClaim`) gets messages in the order of writing and none twice (`lap_increasing`).

`kdata_advance_rhead` does not look at the skip mark: a reader that comes to a page another reader
had kept over a lap returns the message of the lap before (`stale_message`).
-/

namespace Netp.Kring.Data
open Netp.Lib
set_option autoImplicit false

/-! ## Distances on the ring -/

/-- Pages forward from `a` to `b`. -/
def dist (a b : ℕ) : ℕ := (b + kdataNpages - a) % kdataNpages

/-- The place of page `x` in the round that begins after `whead` and ends with it. -/
def place (whead x : ℕ) : ℕ := (x + (kdataNpages - 1 - whead)) % kdataNpages

section Ring
variable {w h p q x : ℕ}

theorem place_next (hp : p < kdataNpages) :
    place w (kdataNext p) = 0 ∨ place w (kdataNext p) = place w p + 1 := by
  unfold place kdataNext kdataNpages at *
  split <;> omega

theorem place_inj (hp : p < kdataNpages) (hx : x < kdataNpages)
    (h : place w x = place w p) : x = p := by
  unfold place kdataNpages at *
  omega

/-- Pages forward of `q` up to `whead` come after it in the round. -/
theorem place_lt_of_dist (hw : w < kdataNpages)
    (h0 : 0 < dist q x) (h1 : dist q x ≤ dist q w) : place w q < place w x := by
  unfold place dist kdataNpages at *
  omega

/-- When `whead` moves to `p`, a page that was not passed on the way and is forward of `h` up to
`p` was forward of `h` up to the old `whead`. -/
theorem dist_le_of_move (hw : w < kdataNpages) (hh : h < kdataNpages) (hgap : place w p < place w x)
    (h0 : 0 < dist h x) (h1 : dist h x ≤ dist h p) : dist h x ≤ dist h w := by
  unfold place dist kdataNpages at *
  omega

/-- The order of two pages that the move of `whead` to `p` did not pass stays. -/
theorem place_lt_of_move (hp : p < kdataNpages) (hgq : place w p < place w q)
    (hgx : place w p < place w x) (h1 : place p q < place p x) : place w q < place w x := by
  unfold place kdataNpages at *
  omega

theorem place_self (hw : w < kdataNpages) : place w x ≤ place w w := by
  unfold place kdataNpages at *
  omega

end Ring

section Lap
variable {W : ℕ} {β : Type}

/-- The step is not one in which `kdata_advance_rhead` takes a page that is not live or, for a
reader that has entered, not forward of `rhead` up to `whead`. -/
def freshClaim (s : State W β) : Act W β → Bool
  | .reader r =>
      match s.reader r with
      | .advCas _ rhead desc =>
          s.desc rhead != desc || (s.hist.live rhead &&
            (!s.entered r || decide (0 < dist (s.rhead r) rhead ∧
              dist (s.rhead r) rhead ≤ dist (s.rhead r) s.whead)))
      | _ => true
  | _ => true

/-- The reader received published messages, each one written after the one before. -/
def Increasing (s : State W β) (r : ReaderId) : Prop :=
  ∃ l : List (Msg β), s.hist.recv r = l.map some ∧ l.Pairwise (fun a b => a.seq < b.seq) ∧
    ∀ m ∈ l, s.hist.written[m.seq]? = some m.data

end Lap

/-! ## The invariant -/

section Inv
variable {β : Type} {s s' : State 1 β}

/-- No page before `p` in the round after `whead` is live. -/
def Gap (s : State 1 β) (p : ℕ) : Prop :=
  ∀ x, x < kdataNpages → place s.whead x < place s.whead p → s.hist.live x = false

/-- Where the writer is in its round. -/
def ScanAt (s : State 1 β) : Prop :=
  let n := s.hist.written.length
  let last := some (⟨n, (s.writer 0).data⟩ : Msg β)
  match (s.writer 0).pc with
  | .findRead p | .findSkip p _ _ | .findSkipStore p _ _ _ | .findSkipCas p _
  | .findClaimCas p _ => p < kdataNpages ∧ Gap s p ∧ s.hist.filled = n
  | .firstStoreWresv p | .fill p =>
      p < kdataNpages ∧ Gap s p ∧ s.hist.live p = false ∧ s.hist.filled = n
  | .secondLoadWresv p | .releaseRead p _ | .releaseCas p _ _ | .secondStoreWhead p =>
      p < kdataNpages ∧ Gap s p ∧ s.hist.live p = false ∧ s.hist.filled = n + 1 ∧ s.page p = last
  | .secondLoadWresvAgain =>
      s.wresv < kdataNpages ∧ Gap s s.wresv ∧ s.hist.live s.wresv = false ∧
        s.hist.filled = n + 1 ∧ s.page s.wresv = last
  | _ => s.hist.filled = n

/-- Every live page forward of `h` up to `whead` has a message written after message `k`. -/
def After (s : State 1 β) (h k : ℕ) : Prop :=
  ∀ x m, s.hist.live x = true → 0 < dist h x → dist h x ≤ dist h s.whead →
    s.page x = some m → k < m.seq

/-- What a reader that has claimed page `q` is to return. -/
def Claimed (s : State 1 β) (r : ReaderId) (q : ℕ) : Prop :=
  q < kdataNpages ∧ ∃ m, s.page q = some m ∧ s.hist.written[m.seq]? = some m.data ∧
    (∀ m', some m' ∈ s.hist.recv r → m'.seq < m.seq) ∧ After s q m.seq

/-- What a reader between two messages has before it. -/
def Between (s : State 1 β) (r : ReaderId) : Prop :=
  s.rhead r < kdataNpages ∧ (s.entered r = false → s.hist.recv r = []) ∧
    ∀ m, some m ∈ s.hist.recv r → After s (s.rhead r) m.seq

def ReaderLap (s : State 1 β) (r : ReaderId) : Prop :=
  match s.reader r with
  | .enterStoreRhead rhead => rhead < kdataNpages ∧ s.hist.recv r = []
  | .enterStoreSkips | .enterStoreEntered | .enterLoadProduced | .enterStoreConsumed _ =>
      s.rhead r < kdataNpages ∧ s.hist.recv r = []
  | .idle | .availLoadWhead _ | .nextLoadRhead => Between s r
  | .advRead _ q | .advCas _ q _ => Between s r ∧ q < kdataNpages
  | .nextStoreRhead _ q | .nextLoadEntered _ q | .relRead _ q | .relCas _ q _ | .relConsumed q
  | .nextStoreEntered q | .nextReturn q => Claimed s r q
  | _ => True

structure LapInv (s : State 1 β) : Prop where
  whead_lt : s.whead < kdataNpages
  live_lt : ∀ p, s.hist.live p = true → p < kdataNpages
  stored : ∀ p, s.hist.live p = true →
    ∃ m, s.page p = some m ∧ s.hist.written[m.seq]? = some m.data
  /-- Round the ring, live pages are in the order of writing. -/
  round : ∀ a b m m', s.hist.live a = true → s.hist.live b = true →
    place s.whead a < place s.whead b → s.page a = some m → s.page b = some m' → m.seq < m'.seq
  writer : ScanAt s
  readers : ∀ r, ReaderLap s r
  increasing : ∀ r, Increasing s r

theorem Increasing.seq_lt {r : ReaderId} (h : Increasing s r) {m : Msg β}
    (hm : some m ∈ s.hist.recv r) : m.seq < s.hist.written.length := by
  obtain ⟨l, hl, _, hw⟩ := h
  rw [hl] at hm
  obtain ⟨m', hm', he⟩ := List.mem_map.1 hm
  cases he
  exact (List.getElem?_eq_some_iff.1 (hw m hm')).1

theorem ReaderLap.frame {r : ReaderId} (h : ReaderLap s r) (hinc : Increasing s r)
    (hf : WriterFrame 0 s s')
    (hafter : ∀ p k, p < kdataNpages → k < s.hist.written.length → After s p k → After s' p k)
    (hpage : ∀ q ∈ bitPages s r, s'.page q = s.page q)
    (hwritten : s.hist.written <+: s'.hist.written) : ReaderLap s' r := by
  have hmono : ∀ (k : ℕ) (x : β), s.hist.written[k]? = some x → s'.hist.written[k]? = some x := by
    intro k x hk
    obtain ⟨t, ht⟩ := hwritten
    rw [← ht, List.getElem?_append_left (List.getElem?_eq_some_iff.1 hk).1]
    exact hk
  have hbetween : Between s r → Between s' r := by
    rintro ⟨h1, h2, h3⟩
    refine ⟨by rw [hf.rhead]; exact h1, by rw [hf.entered, hf.recv]; exact h2, ?_⟩
    rw [hf.recv, hf.rhead]
    intro m hm
    exact hafter _ _ h1 (hinc.seq_lt hm) (h3 m hm)
  have hclaimed : ∀ q ∈ bitPages s r, Claimed s r q → Claimed s' r q := by
    rintro q hq ⟨h1, m, h2, h3, h4, h5⟩
    refine ⟨h1, m, by rw [hpage q hq]; exact h2, hmono _ _ h3, by rw [hf.recv]; exact h4, ?_⟩
    exact hafter _ _ h1 (List.getElem?_eq_some_iff.1 h3).1 h5
  unfold ReaderLap at h ⊢
  rw [hf.reader, hf.rhead, hf.recv]
  cases hpc : s.reader r
  all_goals simp only [hpc] at h ⊢
  all_goals try exact h
  case idle | availLoadWhead | nextLoadRhead => exact hbetween h
  case advRead | advCas => exact ⟨hbetween h.1, h.2⟩
  case nextStoreRhead | nextLoadEntered =>
    refine hclaimed _ ?_ h
    cases he : s.entered r <;> simp [bitPages, hpc, he]
  all_goals exact hclaimed _ (by simp [bitPages, hpc]) h

/-! ## Steps of the writer -/

/-- A step that publishes nothing and stores no message; pages may stop being live. -/
theorem LapInv.quiet (h : LapInv s) (hf : WriterFrame 0 s s') (hwhead : s'.whead = s.whead)
    (hpage : s'.page = s.page) (hwritten : s'.hist.written = s.hist.written)
    (hlive : ∀ p, s'.hist.live p = true → s.hist.live p = true) (hscan : ScanAt s') :
    LapInv s' where
  whead_lt := by rw [hwhead]; exact h.whead_lt
  live_lt p hp := h.live_lt p (hlive p hp)
  stored p hp := by
    rw [hpage, hwritten]
    exact h.stored p (hlive p hp)
  round a b m m' ha hb := by
    rw [hwhead, hpage]
    exact h.round a b m m' (hlive a ha) (hlive b hb)
  writer := hscan
  readers r := by
    refine (h.readers r).frame (h.increasing r) hf ?_ (fun _ _ => by rw [hpage]) ?_
    · intro p k _ _ hafter x m hx
      rw [hwhead, hpage]
      exact hafter x m (hlive x hx)
    · rw [hwritten]
  increasing r := by
    have := h.increasing r
    unfold Increasing at this ⊢
    rw [hf.recv, hwritten]
    exact this

/-- The writer stores the message in its own page, which is not live and which no reader has. -/
theorem LapInv.fill (h : LapInv s) {p : ℕ} (hpc : (s.writer 0).pc = .fill p)
    (hmine : ∀ r, p ∉ bitPages s r) (hs : writerStep s 0 = some s') : LapInv s' := by
  have hf := writerStep_frame hs
  have hw := h.writer
  simp only [ScanAt, hpc] at hw
  obtain ⟨hp, hgap, hdead, hfilled⟩ := hw
  simp only [writerStep, hpc] at hs
  cases hs
  have hoff : ∀ x, s.hist.live x = true → x ≠ p := by
    rintro x hx rfl
    rw [hdead] at hx
    cases hx
  refine ⟨h.whead_lt, h.live_lt, ?_, ?_, ?_, ?_, h.increasing⟩
  · intro x hx
    simp only [State.setWriter]
    rw [Function.update_of_ne (hoff x hx)]
    exact h.stored x hx
  · intro a b m m' ha hb
    simp only [State.setWriter]
    rw [Function.update_of_ne (hoff a ha), Function.update_of_ne (hoff b hb)]
    exact h.round a b m m' ha hb
  · simp only [ScanAt, State.setWriter, Function.update_self]
    exact ⟨hp, hgap, hdead, by rw [hfilled], by rw [hfilled]⟩
  · intro r
    refine (h.readers r).frame (h.increasing r) hf ?_ ?_ (List.prefix_refl _)
    · intro q k _ _ hafter x m hx
      simp only [State.setWriter]
      rw [Function.update_of_ne (hoff x hx)]
      exact hafter x m hx
    · intro q hq
      simp only [State.setWriter]
      rw [Function.update_of_ne]
      rintro rfl
      exact hmine r hq

/-- `whead` moves to the writer's page over pages that are not live. -/
theorem LapInv.publish (h : LapInv s) {p : ℕ} (hpc : (s.writer 0).pc = .secondStoreWhead p)
    (hs : writerStep s 0 = some s') : LapInv s' := by
  have hf := writerStep_frame hs
  have hw := h.writer
  simp only [ScanAt, hpc] at hw
  obtain ⟨hp, hgap, hdead, hfilled, hpage⟩ := hw
  simp only [writerStep, hpc] at hs
  cases hs
  -- a page that is live after the step is the new one, or was live and not passed
  have hcases : ∀ x, Function.update s.hist.live p true x = true →
      x = p ∨ (s.hist.live x = true ∧ place s.whead p < place s.whead x) := by
    intro x hx
    by_cases hxp : x = p
    · exact .inl hxp
    · rw [Function.update_of_ne hxp] at hx
      refine .inr ⟨hx, ?_⟩
      have hlt := h.live_lt x hx
      rcases Nat.lt_trichotomy (place s.whead x) (place s.whead p) with hlt' | heq | hgt
      · rw [hgap x hlt hlt'] at hx
        cases hx
      · exact absurd (place_inj hp hlt heq) hxp
      · exact hgt
  have hmono : ∀ (k : ℕ) (x : β), s.hist.written[k]? = some x →
      (s.hist.written ++ [(s.writer 0).data])[k]? = some x := by
    intro k x hk
    rw [List.getElem?_append_left (List.getElem?_eq_some_iff.1 hk).1]
    exact hk
  have hold : ∀ x m, s.hist.live x = true → s.page x = some m →
      m.seq < s.hist.written.length := by
    intro x m hx hm
    obtain ⟨m', hm', hw⟩ := h.stored x hx
    rw [hm] at hm'
    cases hm'
    exact (List.getElem?_eq_some_iff.1 hw).1
  refine ⟨hp, ?_, ?_, ?_, ?_, ?_, ?_⟩
  · intro x hx
    obtain rfl | ⟨hx, _⟩ := hcases x hx
    · exact hp
    · exact h.live_lt x hx
  · intro x hx
    obtain rfl | ⟨hx, _⟩ := hcases x hx
    · exact ⟨_, hpage, by simp [State.setWriter]⟩
    · obtain ⟨m, hm, hw⟩ := h.stored x hx
      exact ⟨m, hm, hmono _ _ hw⟩
  · intro a b m m' ha hb hab hma hmb
    simp only [State.setWriter] at hab hma hmb
    obtain rfl | ⟨hla, hga⟩ := hcases a ha
    · exact absurd hab (Nat.not_lt.2 (place_self hp))
    · obtain rfl | ⟨hlb, hgb⟩ := hcases b hb
      · rw [hpage] at hmb
        cases hmb
        exact hold a m hla hma
      · exact h.round a b m m' hla hlb (place_lt_of_move hp hga hgb hab) hma hmb
  · simp [ScanAt, State.setWriter, hfilled]
  · intro r
    refine (h.readers r).frame (h.increasing r) hf ?_ (fun _ _ => rfl) (List.prefix_append _ _)
    intro q k hq hk hafter x m hx h0 h1 hm
    simp only [State.setWriter] at h1 hm
    obtain rfl | ⟨hx, hgx⟩ := hcases x hx
    · rw [hpage] at hm
      cases hm
      exact hk
    · exact hafter x m hx h0 (dist_le_of_move h.whead_lt hq hgx h0 h1) hm
  · intro r
    obtain ⟨l, hl, hpair, hw⟩ := h.increasing r
    exact ⟨l, hl, hpair, fun m hm => hmono _ _ (hw m hm)⟩

theorem gap_start (hw : s.whead < kdataNpages) : Gap s (kdataNext s.whead) := by
  intro x _ hx
  have : place s.whead (kdataNext s.whead) = 0 := by
    unfold place kdataNext kdataNpages at *
    split <;> omega
  omega

theorem gap_next {p : ℕ} (hp : p < kdataNpages) (hgap : Gap s p) (hwhead : s'.whead = s.whead)
    (hlive : ∀ x, s'.hist.live x = true → s.hist.live x = true ∧ x ≠ p) :
    Gap s' (kdataNext p) := by
  intro x hx hlt
  rw [hwhead] at hlt
  refine Bool.eq_false_iff.2 fun hl => ?_
  obtain ⟨hl, hne⟩ := hlive x hl
  rcases place_next (w := s.whead) hp with h0 | h1
  · omega
  · rcases Nat.lt_or_ge (place s.whead x) (place s.whead p) with hlt' | hge
    · rw [hgap x hx hlt'] at hl
      cases hl
    · exact hne (place_inj (w := s.whead) hp hx (by omega))

theorem kill_live {p : ℕ} {d : Desc} {w : Fin 1} {pc : WriterPc} {x : ℕ}
    (h : (((s.setDesc p d).kill p).setWriter w pc).hist.live x = true) :
    s.hist.live x = true ∧ x ≠ p := by
  simp only [State.setWriter, State.kill, State.setDesc] at h
  by_cases hx : x = p
  · rw [hx, Function.update_self] at h
    cases h
  · rw [Function.update_of_ne hx] at h
    exact ⟨h, hx⟩

theorem lapInv_writer (hi : DescInv s) (ho : OwnInv s) (hh : ∀ r, Held s r) (hwr : WresvFacts s)
    (h : LapInv s) (hs : writerStep s 0 = some s') : LapInv s' := by
  have hf := writerStep_frame hs
  have hw := h.writer
  cases hpc : (s.writer 0).pc
  case fill p =>
    refine h.fill hpc (fun r hr => ?_) hs
    exact own_ne_of_held hi ho (hh r) hr 0 (by rw [hpc]; rfl)
  case secondStoreWhead p => exact h.publish hpc hs
  all_goals simp only [ScanAt, hpc] at hw
  all_goals simp only [WresvFacts, hpc] at hwr
  all_goals simp only [writerStep, hpc] at hs
  all_goals try split at hs
  all_goals cases hs
  case findLoadWhead =>
    refine h.quiet hf rfl rfl rfl (fun _ hp => hp) ?_
    simp only [ScanAt, State.setWriter, Function.update_self]
    exact ⟨kdataNext_lt _, gap_start h.whead_lt, hw⟩
  case findRead p =>
    refine h.quiet hf rfl rfl rfl (fun _ hp => hp) ?_
    obtain ⟨he, _⟩ | ⟨_, hown⟩ | ⟨he, _⟩ := findTest_cases p (s.desc p)
    · simp only [ScanAt, State.setWriter, Function.update_self, he]
      exact hw
    · obtain ⟨w, hw⟩ := ho.owner p hown
      obtain rfl : w = 0 := Subsingleton.elim _ _
      rw [hpc] at hw
      cases hw
    · simp only [ScanAt, State.setWriter, Function.update_self, he]
      exact hw
  case findSkip.isFalse p d id _ | findSkipStore p d id _ =>
    refine h.quiet hf rfl rfl rfl (fun _ hp => hp) ?_
    obtain ⟨id', he⟩ | he := skipNext_cases p d id
    all_goals simp only [ScanAt, State.setWriter, Function.update_self, he]
    all_goals exact hw
  case findSkipCas.isTrue p d hd =>
    refine h.quiet hf rfl rfl rfl (fun _ hp => (kill_live hp).1) ?_
    simp only [ScanAt, State.setWriter, Function.update_self]
    exact ⟨kdataNext_lt _, gap_next hw.1 hw.2.1 rfl (fun _ hx => kill_live hx), hw.2.2⟩
  case findClaimCas.isTrue p d hd =>
    refine h.quiet hf rfl rfl rfl (fun _ hp => (kill_live hp).1) ?_
    simp only [ScanAt, State.setWriter, Function.update_self]
    refine ⟨hw.1, fun x hx hlt => ?_, by simp [State.kill], hw.2.2⟩
    refine Bool.eq_false_iff.2 fun hl => ?_
    have := hw.2.1 x hx hlt
    rw [(kill_live hl).1] at this
    cases this
  all_goals refine h.quiet hf rfl rfl rfl (fun _ hp => hp) ?_
  all_goals simp only [ScanAt, State.setWriter, Function.update_self]
  case releaseCas.isTrue | releaseCas.isFalse =>
    subst hwr
    exact hw
  all_goals exact hw

/-! ## Steps of a reader -/

theorem LapInv.reader {r : ReaderId} (h : LapInv s) (hf : ReaderFrame r s s')
    (hr : ReaderLap s' r) (hinc : Increasing s' r) : LapInv s' where
  whead_lt := by rw [hf.whead]; exact h.whead_lt
  live_lt p := by rw [hf.live]; exact h.live_lt p
  stored p := by
    rw [hf.live, hf.page, hf.written]
    exact h.stored p
  round a b m m' := by
    rw [hf.live, hf.page, hf.whead]
    exact h.round a b m m'
  writer := by
    have hw := h.writer
    unfold ScanAt Gap at hw ⊢
    rw [hf.writer, hf.written, hf.page, hf.filled, hf.wresv, hf.whead, hf.live]
    exact hw
  readers q := by
    by_cases hq : q = r
    · subst hq
      exact hr
    · obtain ⟨h1, h2, h3, _, h5⟩ := hf.others q hq
      have := h.readers q
      unfold ReaderLap Between Claimed After at this ⊢
      rw [h1, h2, h3, h5, hf.live, hf.page, hf.whead, hf.written]
      exact this
  increasing q := by
    by_cases hq : q = r
    · subst hq
      exact hinc
    · obtain ⟨_, _, _, _, h5⟩ := hf.others q hq
      have := h.increasing q
      unfold Increasing at this ⊢
      rw [h5, hf.written]
      exact this

theorem LapInv.claim {r : ReaderId} (h : LapInv s) {q : ℕ} (hb : Between s r)
    (hlive : s.hist.live q = true)
    (hfresh : s.entered r = true → 0 < dist (s.rhead r) q ∧
      dist (s.rhead r) q ≤ dist (s.rhead r) s.whead) : Claimed s r q := by
  obtain ⟨_, hfirst, hafter⟩ := hb
  obtain ⟨m, hm, hw⟩ := h.stored q hlive
  have hq := h.live_lt q hlive
  refine ⟨hq, m, hm, hw, ?_, ?_⟩
  · intro m' hm'
    have hent : s.entered r = true := by
      refine Bool.not_eq_false _ ▸ fun he => ?_
      rw [hfirst he] at hm'
      cases hm'
    obtain ⟨h0, h1⟩ := hfresh hent
    exact hafter m' hm' q m hlive h0 h1 hm
  · intro x m' hx h0 h1 hm'
    exact h.round q x m m' hlive hx (place_lt_of_dist h.whead_lt h0 h1) hm hm'

theorem lapInv_readerStep {r : ReaderId} (hfacts : ReaderFacts s r) (h : LapInv s)
    (hclaim : freshClaim s (.reader r) = true) (hs : readerStep s r = some s') : LapInv s' := by
  have hf := readerStep_frame hs
  have ha := h.readers r
  have hinc := h.increasing r
  cases hpc : s.reader r
  all_goals simp only [ReaderLap, hpc] at ha
  all_goals simp only [ReaderFacts, hpc] at hfacts
  all_goals simp only [freshClaim, hpc] at hclaim
  all_goals simp only [readerStep, hpc] at hs
  all_goals try split at hs
  all_goals cases hs
  case enterLoadWhead =>
    refine h.reader hf ?_ ?_
    · simp [ReaderLap, State.setReader, h.whead_lt]
    · exact ⟨[], by simp [State.setReader], .nil, by simp⟩
  case nextReturn q =>
    obtain ⟨rfl, hent⟩ := hfacts
    obtain ⟨hq, m, hm, hw, hlt, hafter⟩ := ha
    refine h.reader hf ?_ ?_
    · simp only [ReaderLap, Between, State.setReader, Function.update_self]
      refine ⟨hq, fun he => absurd (he.symm.trans hent) (by decide), ?_⟩
      intro m' hm'
      rw [hm] at hm'
      rcases List.mem_append.1 hm' with hm' | hm'
      · intro x y hx h0 h1 hy
        exact (hlt m' hm').trans (hafter x y hx h0 h1 hy)
      · simp only [List.mem_singleton, Option.some.injEq] at hm'
        subst hm'
        exact hafter
    · obtain ⟨l, hl, hpair, hpub⟩ := hinc
      refine ⟨l ++ [m], ?_, ?_, ?_⟩
      · simp [State.setReader, hl, hm]
      · rw [List.pairwise_append]
        refine ⟨hpair, List.pairwise_singleton _ _, ?_⟩
        intro a ha b hb
        rw [List.mem_singleton.1 hb]
        exact hlt a (by rw [hl]; exact List.mem_map_of_mem ha)
      · intro x hx
        rcases List.mem_append.1 hx with hx | hx
        · exact hpub x hx
        · rw [List.mem_singleton.1 hx]
          exact hw
  all_goals refine h.reader hf ?_ hinc
  all_goals simp only [ReaderLap, State.setReader, Function.update_self]
  case advCas.isTrue prev q d hd =>
    have hfresh : s.hist.live q = true ∧ (s.entered r = true → 0 < dist (s.rhead r) q ∧
        dist (s.rhead r) q ≤ dist (s.rhead r) s.whead) := by
      simp only [hd, bne_self_eq_false, Bool.false_or, Bool.and_eq_true, Bool.or_eq_true,
        Bool.not_eq_true', decide_eq_true_eq] at hclaim
      refine ⟨hclaim.1, fun he => ?_⟩
      rcases hclaim.2 with hne | hdist
      · rw [hne] at he
        cases he
      · exact hdist
    exact h.claim ha.1 hfresh.1 hfresh.2
  case nextLoadRhead => exact ⟨ha, kdataNext_lt _⟩
  case advRead.isTrue => exact ha
  case advRead.isFalse | advCas.isFalse => exact ⟨ha.1, kdataNext_lt _⟩
  case enterStoreConsumed =>
    refine ⟨ha.1, fun _ => ha.2, fun m hm => ?_⟩
    rw [ha.2] at hm
    cases hm
  all_goals exact ha

theorem noWrap_of_fresh {a : Act 1 β} (hi : DescInv s) (h : freshClaim s a = true) :
    noWrap s a = true := by
  cases a with
  | reader r =>
    have hfacts := hi.readers r
    cases hpc : s.reader r
    case advCas prev q d =>
      simp only [ReaderFacts, hpc] at hfacts
      simp only [noWrap, freshClaim, hpc] at h ⊢
      refine Bool.not_eq_true' _ ▸ Bool.eq_false_iff.2 fun hbad => ?_
      simp only [Bool.and_eq_true, beq_iff_eq] at hbad
      obtain ⟨⟨hent, hd⟩, rfl⟩ := hbad
      rw [← hfacts.1] at h
      have hself : dist q q = 0 := by
        unfold dist
        rw [Nat.add_sub_cancel_left, Nat.mod_self]
      simp [hd, hent, hself] at h
    all_goals simp only [noWrap, hpc]
  | _ => rfl

theorem lapInv_step {a : Act 1 β} (hi : DescInv s) (ho : OwnInv s) (hh : ∀ r, Held s r)
    (hwr : WresvFacts s) (h : LapInv s) (hclaim : freshClaim s a = true)
    (hs : step s a = some s') : LapInv s' := by
  cases a with
  | start w m =>
    obtain ⟨hpc, rfl⟩ := start_eq hs
    obtain rfl : w = 0 := Subsingleton.elim _ _
    have hw := h.writer
    simp only [ScanAt, hpc] at hw
    exact h.quiet (start_frame 0 _) rfl rfl rfl (fun _ hp => hp) (by simpa [ScanAt] using hw)
  | writer w =>
    obtain rfl : w = 0 := Subsingleton.elim _ _
    exact lapInv_writer hi ho hh hwr h hs
  | attach r =>
    obtain ⟨_, rfl⟩ := attach_eq hs
    refine h.reader (setReader_frame r _) ?_ (h.increasing r)
    simp [ReaderLap, State.setReader]
  | detach r =>
    obtain ⟨_, rfl⟩ := detach_eq hs
    refine h.reader (setReader_frame r _) ?_ (h.increasing r)
    simp [ReaderLap, State.setReader]
  | reader r => exact lapInv_readerStep (hi.readers r) h hclaim hs

theorem lapInv_init [Inhabited β] : LapInv (kdataInitControl : State 1 β) where
  whead_lt := by
    change kdataPrev 0 < kdataNpages
    decide
  live_lt p h := by simp [kdataInitControl] at h
  stored p h := by simp [kdataInitControl] at h
  round a b m m' h := by simp [kdataInitControl] at h
  writer := by simp [ScanAt, kdataInitControl]
  readers r := trivial
  increasing r := ⟨[], rfl, .nil, by simp⟩

theorem lapInv_run [Inhabited β] (h : ReachIf (ring 1 β) (fun s a => freshClaim s a) s) :
    LapInv s := by
  have hwrap : ∀ {t : State 1 β}, ReachIf (ring 1 β) (fun s a => freshClaim s a) t →
      ∀ r, Held t r := by
    intro t ht
    have : ReachIf (ring 1 β) (fun s a => noWrap s a) t :=
      ht.imp fun u a hu _ hok => noWrap_of_fresh (descInv_run hu) hok
    exact held_run (fun _ _ h => h) this
  have hstep : ReachIf (ring 1 β) (fun s a => (DescInv s ∧ OwnInv s ∧ (∀ r, Held s r) ∧
      WresvFacts s) ∧ freshClaim s a = true) s :=
    h.imp fun t a ht _ hok =>
      ⟨⟨descInv_run ht, ownInv_single ht, hwrap ht, wresvFacts_run ht⟩, hok⟩
  refine hstep.invariant (I := LapInv) lapInv_init ?_
  intro t a t' hl hok hs
  obtain ⟨⟨hi, ho, hh, hwr⟩, hc⟩ := hok
  exact lapInv_step hi ho hh hwr hl hc hs

end Inv

/-- **No stale and no repeated message** along every run in which every claim is of a live page
between the reader's `rhead` and `whead`, however often the readers are lapped. -/
theorem lap_increasing {β : Type} [Inhabited β] (s : State 1 β)
    (h : ReachIf (ring 1 β) (fun s a => freshClaim s a) s) (r : ReaderId) : Increasing s r :=
  (lapInv_run h).increasing r

/-! ## The lap after -/

/-- Reader 0 has entered, and `k` messages were written, in pages `0` to `k - 1`. -/
def lapState (k : ℕ) : State 1 ℕ where
  whead := pageOf k
  wresv := pageOf k
  produced := k
  rhead := Function.update (fun _ => 0) 0 (pageOf 0)
  skips := fun _ => 0
  entered := fun _ => false
  consumed := fun _ => 0
  desc := fun _ => 0
  page := fun p => if p < k then some ⟨p, 0⟩ else none
  writer := fun _ => ⟨.idle, 0⟩
  reader := Function.update (fun _ => .detached) 0 .idle
  hist := ⟨k, List.replicate k 0, fun p => decide (p < k), fun _ => 0, fun _ => []⟩

theorem lapState_zero : ReachIf (ring 1 ℕ) (fun s a => freshClaim s a) (lapState 0) := by
  have hsome : (runIf (ring 1 ℕ) freshClaim (ring 1 ℕ).init (enters 0)).isSome = true := by
    rfl
  obtain ⟨s, hs⟩ := Option.isSome_iff_exists.1 hsome
  have he : s = lapState 0 := by
    refine State.ext ?_ ?_ ?_ ?_ ?_ ?_ ?_ ?_ ?_ ?_ ?_ ?_
    · exact run_field hs State.whead rfl
    · exact run_field hs State.wresv rfl
    · exact run_field hs State.produced rfl
    · exact run_field hs State.rhead rfl
    · funext r
      fin_cases r <;> exact run_field hs (fun s => s.skips _) rfl
    · funext r
      fin_cases r <;> exact run_field hs (fun s => s.entered _) rfl
    · funext r
      fin_cases r <;> exact run_field hs (fun s => s.consumed _) rfl
    · exact run_field hs State.desc rfl
    · exact run_field hs State.page rfl
    · exact run_field hs State.writer rfl
    · funext r
      fin_cases r <;> exact run_field hs (fun s => s.reader _) rfl
    · refine Hist.ext ?_ ?_ ?_ ?_ ?_
      · exact run_field hs (fun s => s.hist.filled) rfl
      · exact run_field hs (fun s => s.hist.written) rfl
      · funext p
        exact run_field hs (fun s => s.hist.live p) rfl
      · funext r
        fin_cases r <;> exact run_field hs (fun s => s.hist.entry _) rfl
      · funext r
        fin_cases r <;> exact run_field hs (fun s => s.hist.recv _) rfl
  exact he ▸ ReachIf.runIf (fun _ _ h => h) .init hs

/-- What a writer does claims no page for a reader. -/
theorem freshClaim_writes {data n : ℕ} {a : Act 1 ℕ} (ha : a ∈ .start 0 data :: writes 0 n)
    (s : State 1 ℕ) : freshClaim s a = true := by
  rcases List.mem_cons.1 ha with rfl | ha
  · rfl
  · rw [List.eq_of_mem_replicate ha]
    rfl

theorem lapState_succ {k : ℕ} (hk : k + 1 < kdataNpages)
    (h : ReachIf (ring 1 ℕ) (fun s a => freshClaim s a) (lapState k)) :
    ReachIf (ring 1 ℕ) (fun s a => freshClaim s a) (lapState (k + 1)) := by
  have hmod : k % kdataNpages = k := Nat.mod_eq_of_lt (by omega)
  have hclaim : run (ring 1 ℕ) (lapState k) (.start 0 0 :: writes 0 3) =
      some (claimed (lapState k) 0 0 k) :=
    run_claim rfl ((kdataNext_pageOf k).trans hmod) rfl
  have hpub : run (ring 1 ℕ) (claimed (lapState k) 0 0 k) (writes 0 8) =
      some (published (claimed (lapState k) 0 0 k) 0 k) := by
    refine run_publish ?_
    simp [claimed]
  have he : published (claimed (lapState k) 0 0 k) 0 k = lapState (k + 1) := by
    refine State.ext ?_ ?_ rfl rfl rfl rfl rfl ?_ ?_ ?_ rfl ?_
    · exact ((pageOf_succ k).trans hmod).symm
    · exact ((pageOf_succ k).trans hmod).symm
    · funext p
      by_cases hp : p = k
      · simp [published, claimed, State.setDesc, State.kill, lapState, hp]
      · simp [published, claimed, State.setDesc, State.kill, lapState]
    · funext p
      by_cases hp : p = k
      · simp [published, claimed, State.setDesc, State.kill, lapState, hp]
      · have hlt : p ≤ k ↔ p < k := by omega
        simp [published, claimed, State.setDesc, State.kill, lapState, Function.update_of_ne hp,
          hlt]
    · funext w
      obtain rfl : w = 0 := Subsingleton.elim _ _
      simp [published, claimed, lapState]
    · refine Hist.ext rfl ?_ ?_ rfl rfl
      · simp [published, claimed, State.setDesc, State.kill, lapState, List.replicate_succ']
      · funext p
        by_cases hp : p = k
        · simp [published, claimed, State.setDesc, State.kill, lapState, hp]
        · have hlt : p ≤ k ↔ p < k := by omega
          simp [published, claimed, State.setDesc, State.kill, lapState,
            Function.update_of_ne hp, hlt]
  exact he ▸ (h.run_of (fun _ => freshClaim_writes) hclaim).run_of
    (fun _ ha => freshClaim_writes (List.mem_cons_of_mem (.start 0 0) ha)) hpub

theorem lapState_reach (k : ℕ) (hk : k < kdataNpages) :
    ReachIf (ring 1 ℕ) (fun s a => freshClaim s a) (lapState k) := by
  induction k with
  | zero => exact lapState_zero
  | succ k ih => exact lapState_succ hk (ih (by omega))

/-- The reader takes message 0 and keeps its page. The writer fills the ring, passes the reader's page
over and writes message 2048 in the page after it, which the reader takes next. -/
theorem lap_increasing_passed : ∃ s, ReachIf (ring 1 ℕ) (fun s a => freshClaim s a) s ∧
    s.hist.recv 0 = [some ⟨0, 0⟩, some ⟨2048, 8⟩] ∧ Increasing s 0 := by
  have h : ((runIf (ring 1 ℕ) freshClaim (lapState 2047)
      (reads 0 9 ++ .start 0 7 :: writes 0 11 ++ .start 0 8 :: writes 0 20 ++ reads 0 12)).map
        fun s => s.hist.recv 0) = some [some ⟨0, 0⟩, some ⟨2048, 8⟩] := rfl
  obtain ⟨s, hs, hrecv⟩ := Option.map_eq_some_iff.1 h
  have hr := ReachIf.runIf (fun _ _ h => h) (lapState_reach 2047 (by decide)) hs
  exact ⟨s, hr, hrecv, lap_increasing s hr 0⟩

/-- Reader 0 takes page 0. Reader 1 enters, gets message 2047, and the writer passes page 0 over
and writes in page 1; then reader 1 takes page 0. -/
def staleSchedule : List (Act 1 ℕ) :=
  reads 0 9 ++ enters 1 ++ .start 0 0 :: writes 0 11 ++ reads 1 9 ++ .start 0 0 :: writes 0 20 ++
    reads 1 12

theorem stale_message : ∃ s : State 1 ℕ, Reach (ring 1 ℕ) s ∧ ¬ Increasing s 1 := by
  have h : ((run (ring 1 ℕ) (lapState 2047) staleSchedule).map fun s => s.hist.recv 1) =
      some [some ⟨2047, 0⟩, some ⟨0, 0⟩] := rfl
  obtain ⟨s, hs, hrecv⟩ := Option.map_eq_some_iff.1 h
  refine ⟨s, (lapState_reach 2047 (by decide)).reach.run hs, ?_⟩
  rintro ⟨l, hl, hpair, _⟩
  rw [hrecv] at hl
  obtain rfl : l = [⟨2047, 0⟩, ⟨0, 0⟩] := by
    refine List.map_injective_iff.2 (Option.some_injective _) ?_
    rw [← hl]
    rfl
  simp at hpair

end Netp.Kring.Data
