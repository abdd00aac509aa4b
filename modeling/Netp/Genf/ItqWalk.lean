import Netp.Genf.Itq
import Mathlib.Data.List.Nodup

/-! # Pieces in the blocks of a writer

`Walk bs o ps n bs' o'`: allocated one after the other from offset `o` of the first block of `bs`,
the pieces `ps` end at offset `o'` of the first block of `bs'`, and `n` bytes are gone, those left
unused at the end of a block included. So `allocBytes` adds a piece to a walk, `itqRead` follows the
first two pieces of a walk, and `release` comes to where the walk of a message ends.
-/

namespace Netp.Genf.Itq
open Netp.Lib
set_option autoImplicit false

inductive Walk : List ItBlock → ℕ → List Piece → ℕ → List ItBlock → ℕ → Prop
  | nil (bs : List ItBlock) (o : ℕ) : Walk bs o [] 0 bs o
  | fit {b : ItBlock} {bs bs' : List ItBlock} {o o' len n : ℕ} {ps : List Piece}
      (h : o + len ≤ b.size) (hw : Walk (b :: bs) (o + len) ps n bs' o') :
      Walk (b :: bs) o (⟨b.name, o, len⟩ :: ps) (len + n) bs' o'
  | move {b c : ItBlock} {bs bs' : List ItBlock} {o o' len n : ℕ} {ps : List Piece}
      (h : b.size < o + len) (ho : o ≤ b.size) (hlen : len ≤ c.size)
      (hw : Walk (c :: bs) len ps n bs' o') :
      Walk (b :: c :: bs) o (⟨c.name, 0, len⟩ :: ps) (b.size - o + len + n) bs' o'

section Walk
variable {bs bs' bs'' ds : List ItBlock} {o o' o'' n m : ℕ} {ps qs : List Piece}

theorem Walk.trans (h : Walk bs o ps n bs' o') (h' : Walk bs' o' qs m bs'' o'') :
    Walk bs o (ps ++ qs) (n + m) bs'' o'' := by
  induction h with
  | nil bs o =>
    rw [Nat.zero_add]
    exact h'
  | fit hfit _ ih =>
    rw [Nat.add_assoc]
    exact .fit hfit (ih h')
  | move hmove ho hlen _ ih =>
    rw [Nat.add_assoc]
    exact .move hmove ho hlen (ih h')

theorem Walk.append (h : Walk bs o ps n bs' o') : Walk (bs ++ ds) o ps n (bs' ++ ds) o' := by
  induction h with
  | nil bs o => exact .nil _ _
  | fit hfit _ ih => exact .fit hfit ih
  | move hmove ho hlen _ ih => exact .move hmove ho hlen ih

theorem Walk.snoc_fit {t : ItBlock} {len : ℕ} (h : Walk bs o ps n [t] o')
    (hfit : o' + len ≤ t.size) :
    Walk bs o (ps ++ [⟨t.name, o', len⟩]) (n + len) [t] (o' + len) := by
  have h1 : Walk [t] o' [⟨t.name, o', len⟩] (len + 0) [t] (o' + len) := .fit hfit (.nil _ _)
  exact h.trans h1

theorem Walk.snoc_move {t c : ItBlock} {len : ℕ} (h : Walk bs o ps n [t] o')
    (hmove : t.size < o' + len) (ho : o' ≤ t.size) (hlen : len ≤ c.size) :
    Walk (bs ++ [c]) o (ps ++ [⟨c.name, 0, len⟩]) (n + (t.size - o' + len)) [c] len := by
  have h1 : Walk ([t] ++ [c]) o' [⟨c.name, 0, len⟩] (t.size - o' + len + 0) [c] len :=
    .move hmove ho hlen (.nil _ _)
  exact h.append.trans h1

theorem Walk.blk_mem (h : Walk bs o ps n bs' o') :
    ∀ p ∈ ps, p.blk ∈ bs.map ItBlock.name := by
  induction h with
  | nil bs o =>
    intro p hp
    cases hp
  | fit _ _ ih =>
    intro p hp
    rcases List.mem_cons.1 hp with rfl | hp
    · simp
    · exact ih p hp
  | move _ _ _ _ ih =>
    intro p hp
    rcases List.mem_cons.1 hp with rfl | hp
    · simp
    · exact List.mem_cons_of_mem _ (ih p hp)

theorem Walk.suffix (h : Walk bs o ps n bs' o') : bs' <:+ bs := by
  induction h with
  | nil bs o => exact List.suffix_rfl
  | fit _ _ ih => exact ih
  | move _ _ _ _ ih => exact ih.trans (List.suffix_cons _ _)

theorem eq_singleton_of_suffix {t b : ItBlock} (hs : [t] <:+ b :: bs)
    (hn : ((b :: bs).map ItBlock.name).Nodup) (h : b.name = t.name) : b :: bs = [t] := by
  rw [List.suffix_cons_iff] at hs
  rcases hs with hs | hs
  · exact hs.symm
  · have hin := hs.subset (List.mem_singleton.2 rfl)
    rw [List.map_cons, List.nodup_cons, h] at hn
    exact absurd (List.mem_map_of_mem hin) hn.1

/-- A piece in the block where the walk ends lies before that end. -/
theorem Walk.before_end {t : ItBlock} (h : Walk bs o ps n bs' o') (hbs : bs' = [t])
    (hn : (bs.map ItBlock.name).Nodup) :
    (∀ p ∈ ps, p.blk = t.name → p.off + p.len ≤ o') ∧ (bs = [t] → o ≤ o') := by
  induction h with
  | nil bs o =>
    refine ⟨?_, fun _ => Nat.le_refl _⟩
    intro p hp
    cases hp
  | fit _ hw ih =>
    obtain ⟨h1, h2⟩ := ih hbs hn
    refine ⟨?_, fun he => Nat.le_trans (Nat.le_add_right _ _) (h2 he)⟩
    intro p hp hpt
    rcases List.mem_cons.1 hp with rfl | hp
    · exact h2 (eq_singleton_of_suffix (hbs ▸ hw.suffix) hn hpt)
    · exact h1 p hp hpt
  | move _ _ _ hw ih =>
    have hn' := hn
    rw [List.map_cons, List.nodup_cons] at hn'
    obtain ⟨h1, h2⟩ := ih hbs hn'.2
    refine ⟨?_, fun he => by cases he⟩
    intro p hp hpt
    rcases List.mem_cons.1 hp with rfl | hp
    · have := h2 (eq_singleton_of_suffix (hbs ▸ hw.suffix) hn'.2 hpt)
      simp only
      omega
    · exact h1 p hp hpt

/-! ## Reading -/

theorem Walk.seek_seek {hdr contents : Piece}
    (h : Walk bs o (hdr :: contents :: ps) n bs' o') :
    ∃ cs x c ds, seek bs o hdr.len = some (cs, x) ∧
      seek cs (x + hdr.len) contents.len = some (c :: ds, contents.off) ∧ c.name = contents.blk := by
  have second : ∀ {bs : List ItBlock} {o n : ℕ}, Walk bs o (contents :: ps) n bs' o' →
      ∃ c ds, seek bs o contents.len = some (c :: ds, contents.off) ∧ c.name = contents.blk := by
    intro bs o n hw
    cases hw with
    | fit hfit _ => exact ⟨_, _, if_neg (Nat.not_lt.2 hfit), rfl⟩
    | move hmove _ _ _ => exact ⟨_, _, if_pos hmove, rfl⟩
  cases h with
  | fit hfit hw =>
    obtain ⟨c, ds, hs, hc⟩ := second hw
    exact ⟨_, _, c, ds, if_neg (Nat.not_lt.2 hfit), hs, hc⟩
  | move hmove _ _ hw =>
    obtain ⟨c, ds, hs, hc⟩ := second hw
    refine ⟨_, _, c, ds, if_pos hmove, ?_, hc⟩
    rw [Nat.zero_add]
    exact hs

/-! ## Releasing -/

/-- A full first block is as good as gone. -/
def canon : List ItBlock → ℕ → List ItBlock × ℕ
  | [], o => ([], o)
  | b :: bs, o => if o = b.size then (bs, 0) else (b :: bs, o)

theorem canon_full {b : ItBlock} (h : o = b.size) : canon (b :: bs) o = (bs, 0) := if_pos h

theorem canon_stay {b : ItBlock} (h : o ≠ b.size) : canon (b :: bs) o = (b :: bs, o) := if_neg h

/-- A walk of a message goes on from the next block if the first one is full. -/
theorem Walk.canon {p : Piece} (h : Walk bs o (p :: ps) n bs' o') (hp : 0 < p.len) :
    Walk (canon bs o).1 (canon bs o).2 (p :: ps) n bs' o' := by
  cases h with
  | @fit b _ _ _ _ len _ _ hfit hw =>
    have hlen : 0 < len := hp
    rw [canon_stay (by omega)]
    exact .fit hfit hw
  | @move b c cs _ _ _ len m _ hmove ho hlen hw =>
    by_cases hfull : o = b.size
    · rw [canon_full hfull, hfull, Nat.sub_self, Nat.zero_add]
      have hw' : Walk (c :: cs) (0 + len) ps m bs' o' := by
        rw [Nat.zero_add]
        exact hw
      exact .fit (by omega) hw'
    · rw [canon_stay hfull]
      exact .move hmove ho hlen hw

/-- The loop of `release`, with only the blocks and `hoff` that are left. -/
def skip (bs : List ItBlock) (o n : ℕ) : Option (List ItBlock × ℕ) :=
  (releaseLoop bs o n).map fun r => (r.1, r.2.1)

theorem skip_zero (bs : List ItBlock) (o : ℕ) : skip bs o 0 = some (bs, o) := by
  cases bs with
  | nil => rfl
  | cons b bs => simp [skip, releaseLoop]

theorem skip_pop {b : ItBlock} (h : 0 < n) (h' : b.size - o ≤ n) :
    skip (b :: bs) o n = skip bs 0 (n - (b.size - o)) := by
  unfold skip
  rw [releaseLoop, if_pos ⟨h, h'⟩, Option.map_map]
  rfl

theorem skip_stay {b : ItBlock} (h : n < b.size - o) : skip (b :: bs) o n = some (b :: bs, o + n) := by
  unfold skip
  rw [releaseLoop, if_neg (by omega)]
  rfl

/-- From a block that is not full, the bytes of a piece in it may be skipped first. -/
theorem skip_piece (bs : List ItBlock) {b : ItBlock} {len : ℕ} (ho : o < b.size) (hfit : o + len ≤ b.size) :
    skip (b :: bs) o (len + m) =
      skip (Itq.canon (b :: bs) (o + len)).1 (Itq.canon (b :: bs) (o + len)).2 m := by
  by_cases he : o + len = b.size
  · rw [canon_full he, skip_pop (by omega) (by omega)]
    congr 1
    omega
  · rw [canon_stay he]
    by_cases hm : b.size - (o + len) ≤ m
    · rw [skip_pop (by omega) (by omega), skip_pop (by omega) hm]
      congr 1
      omega
    · rw [skip_stay (by omega), skip_stay (by omega), Nat.add_assoc]

theorem Walk.skip (h : Walk bs o ps n bs' o') (hpos : ∀ b ∈ bs, 0 < b.size) :
    Itq.skip (Itq.canon bs o).1 (Itq.canon bs o).2 (n + m) =
      Itq.skip (Itq.canon bs' o').1 (Itq.canon bs' o').2 m := by
  induction h with
  | nil bs o => rw [Nat.zero_add]
  | @fit b bs bs' o o' len n ps hfit hw ih =>
    rw [← ih hpos, Nat.add_assoc]
    by_cases ho : o = b.size
    · have hl : len = 0 := by omega
      subst hl
      rw [Nat.add_zero, Nat.zero_add]
    · rw [canon_stay ho]
      exact skip_piece _ (by omega) hfit
  | @move b c bs bs' o o' len n ps hmove ho hlen hw ih =>
    have hpos' : ∀ d ∈ c :: bs, 0 < d.size := fun d hd => hpos d (List.mem_cons_of_mem _ hd)
    have hc : 0 < c.size := hpos' c List.mem_cons_self
    have hnext : Itq.skip (c :: bs) 0 (len + (n + m)) =
        Itq.skip (Itq.canon (c :: bs) len).1 (Itq.canon (c :: bs) len).2 (n + m) := by
      have := skip_piece bs (m := n + m) hc (by omega : 0 + len ≤ c.size)
      rwa [Nat.zero_add] at this
    rw [← ih hpos', ← hnext]
    by_cases hfull : o = b.size
    · rw [canon_full hfull]
      congr 1
      omega
    · rw [canon_stay hfull]
      simp only
      rw [skip_pop (by omega) (by omega)]
      congr 1
      omega

theorem Walk.release (h : Walk bs o ps n bs' o') (hpos : ∀ b ∈ bs, 0 < b.size)
    (ho : Itq.canon bs o = (bs, o)) : Itq.skip bs o n = some (Itq.canon bs' o') := by
  have := h.skip (m := 0) hpos
  rw [ho, skip_zero, Nat.add_zero] at this
  exact this

theorem releaseLoop_pops {pops : List ℕ} (h : releaseLoop bs o n = some (bs', o', pops)) :
    bs.map ItBlock.name = pops ++ bs'.map ItBlock.name := by
  induction bs generalizing o n pops with
  | nil =>
    unfold releaseLoop at h
    split at h
    · cases h
      rfl
    · cases h
  | cons b bs ih =>
    unfold releaseLoop at h
    split at h
    · obtain ⟨⟨cs, x, ps⟩, hr, he⟩ := Option.map_eq_some_iff.1 h
      cases he
      rw [List.map_cons, ih hr]
      rfl
    · cases h
      rfl

theorem releaseLoop_suffix {pops : List ℕ} (h : releaseLoop bs o n = some (bs', o', pops)) :
    bs' <:+ bs := by
  induction bs generalizing o n pops with
  | nil =>
    unfold releaseLoop at h
    split at h
    · cases h
      exact List.suffix_rfl
    · cases h
  | cons b bs ih =>
    unfold releaseLoop at h
    split at h
    · obtain ⟨⟨cs, x, ps⟩, hr, he⟩ := Option.map_eq_some_iff.1 h
      cases he
      exact (ih hr).trans (List.suffix_cons _ _)
    · cases h
      exact List.suffix_rfl

end Walk

end Netp.Genf.Itq
