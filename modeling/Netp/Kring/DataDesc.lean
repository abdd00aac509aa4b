import Netp.Kring.Data
import Mathlib.Tactic

/-! # The descriptor word, bit by bit

The masks of `kdata.h` select single bits. Everything later is said with `writerOwned`, `skipped`
and `readerBit`; the lemmas below say what the tests of the code read and what the five
compare-and-swaps write.
-/

namespace Netp.Kring.Data
set_option autoImplicit false

def writerOwned (d : Desc) : Bool := d.getLsbD 0
def skipped (d : Desc) : Bool := d.getLsbD 1
def readerBit (r : ReaderId) (d : Desc) : Bool := d.getLsbD (kdataDscReaderShift + r.val)

theorem writerOwned_mask : kdataDscWriterOwned = BitVec.twoPow 16 0 := by decide

theorem skipped_mask : kdataDscSkipped = BitVec.twoPow 16 1 := by decide

theorem readerBit_mask (r : ReaderId) :
    kdataDscReaderBit r = BitVec.twoPow 16 (kdataDscReaderShift + r.val) := by
  rw [kdataDscReaderBit, BitVec.twoPow]

theorem readerBit_index (r : ReaderId) : kdataDscReaderShift + r.val < 16 := by
  have := r.isLt
  simp only [kdataDscReaderShift, kdataReaders] at this ⊢
  omega

/-! ## Tests -/

theorem and_twoPow_eq_zero (d : Desc) (k : ℕ) (hk : k < 16) :
    d &&& BitVec.twoPow 16 k = 0 ↔ d.getLsbD k = false := by
  rw [BitVec.and_twoPow]
  by_cases h : d.getLsbD k = true
  · simp only [h, if_true]
    constructor
    · intro he
      have := congrArg (fun x : Desc => x.getLsbD k) he
      simp [hk] at this
    · intro he
      cases he
  · simp [h]

theorem and_writerOwned (d : Desc) : d &&& kdataDscWriterOwned = 0 ↔ writerOwned d = false := by
  rw [writerOwned_mask]
  exact and_twoPow_eq_zero d 0 (by omega)

theorem and_skipped (d : Desc) : d &&& kdataDscSkipped = 0 ↔ skipped d = false := by
  rw [skipped_mask]
  exact and_twoPow_eq_zero d 1 (by omega)

theorem readerOwned_getLsbD (i : ℕ) (hi : i < 16) :
    kdataDscReaderOwned.getLsbD i = decide (2 ≤ i ∧ i < 8) := by
  interval_cases i <;> decide

theorem and_readerOwned (d : Desc) :
    d &&& kdataDscReaderOwned = 0 ↔ ∀ r, readerBit r d = false := by
  constructor
  · intro h r
    have hi := readerBit_index r
    have hr := r.isLt
    have := congrArg (fun x : Desc => x.getLsbD (kdataDscReaderShift + r.val)) h
    simp only [BitVec.getLsbD_and, readerOwned_getLsbD _ hi] at this
    have h28 : 2 ≤ kdataDscReaderShift + r.val ∧ kdataDscReaderShift + r.val < 8 := by
      simp only [kdataDscReaderShift, kdataReaders] at hr ⊢
      omega
    simpa [h28, readerBit] using this
  · intro h
    apply BitVec.eq_of_getLsbD_eq
    intro i hi
    simp only [BitVec.getLsbD_and, readerOwned_getLsbD i hi]
    by_cases h28 : 2 ≤ i ∧ i < 8
    · have := h ⟨i - 2, by simp only [kdataReaders]; omega⟩
      simp only [readerBit, kdataDscReaderShift, show 2 + (i - 2) = i by omega] at this
      simp [this]
    · simp [h28]

/-! ## What the compare-and-swaps write -/

section Values
variable (d : Desc) (r q : ReaderId)

theorem getLsbD_or_twoPow (k i : ℕ) (hk : k < 16) :
    (d ||| BitVec.twoPow 16 k).getLsbD i = (d.getLsbD i || decide (i = k)) := by
  rw [BitVec.getLsbD_or, BitVec.getLsbD_twoPow]
  simp [hk, eq_comm]

theorem getLsbD_and_not_twoPow (k i : ℕ) :
    (d &&& ~~~BitVec.twoPow 16 k).getLsbD i = (d.getLsbD i && !decide (i = k)) := by
  by_cases hi : i < 16
  · rw [BitVec.getLsbD_and, BitVec.getLsbD_not, BitVec.getLsbD_twoPow]
    by_cases hik : i = k
    · subst hik
      simp [hi]
    · have hki : ¬ k = i := fun h => hik h.symm
      simp [hi, hik, hki]
  · rw [BitVec.getLsbD_of_ge _ i (by omega), BitVec.getLsbD_of_ge d i (by omega)]
    rfl

theorem or_bit {k i : ℕ} (hk : k < 16) (hi : i ≠ k) :
    (d ||| BitVec.twoPow 16 k).getLsbD i = d.getLsbD i := by
  rw [getLsbD_or_twoPow d k i hk, decide_eq_false hi, Bool.or_false]

theorem or_bit_self {k : ℕ} (hk : k < 16) : (d ||| BitVec.twoPow 16 k).getLsbD k = true := by
  rw [getLsbD_or_twoPow d k k hk, decide_eq_true rfl, Bool.or_true]

theorem and_not_bit {k i : ℕ} (hi : i ≠ k) :
    (d &&& ~~~BitVec.twoPow 16 k).getLsbD i = d.getLsbD i := by
  rw [getLsbD_and_not_twoPow d k i, decide_eq_false hi, Bool.not_false, Bool.and_true]

theorem and_not_bit_self {k : ℕ} : (d &&& ~~~BitVec.twoPow 16 k).getLsbD k = false := by
  rw [getLsbD_and_not_twoPow d k k, decide_eq_true rfl, Bool.not_true, Bool.and_false]

theorem readerBit_index_ne {k : ℕ} (hk : k < kdataDscReaderShift) : k ≠ kdataDscReaderShift + r.val :=
  (Nat.lt_add_right _ hk).ne

/-! ### A reader takes the page -/

@[simp] theorem writerOwned_claim :
    writerOwned (d ||| kdataDscReaderBit r) = writerOwned d := by
  unfold writerOwned
  rw [readerBit_mask]
  exact or_bit d (readerBit_index r) (readerBit_index_ne r (by decide))

@[simp] theorem skipped_claim : skipped (d ||| kdataDscReaderBit r) = skipped d := by
  unfold skipped
  rw [readerBit_mask]
  exact or_bit d (readerBit_index r) (readerBit_index_ne r (by decide))

@[simp] theorem readerBit_claim :
    readerBit q (d ||| kdataDscReaderBit r) = (readerBit q d || decide (q = r)) := by
  unfold readerBit
  rw [readerBit_mask, getLsbD_or_twoPow d _ _ (readerBit_index r)]
  simp [Fin.ext_iff]

/-! ### A writer marks it as passed over -/

@[simp] theorem writerOwned_skip : writerOwned (d ||| kdataDscSkipped) = writerOwned d := by
  unfold writerOwned
  rw [skipped_mask]
  exact or_bit d (by omega) (by omega)

@[simp] theorem skipped_skip : skipped (d ||| kdataDscSkipped) = true := by
  unfold skipped
  rw [skipped_mask]
  exact or_bit_self d (by omega)

@[simp] theorem readerBit_skip : readerBit r (d ||| kdataDscSkipped) = readerBit r d := by
  unfold readerBit
  rw [skipped_mask]
  exact or_bit d (by omega) (readerBit_index_ne r (by decide)).symm

/-! ### A writer takes it, and gives it back -/

@[simp] theorem writerOwned_take : writerOwned (d ||| kdataDscWriterOwned) = true := by
  unfold writerOwned
  rw [writerOwned_mask]
  exact or_bit_self d (by omega)

@[simp] theorem skipped_take : skipped (d ||| kdataDscWriterOwned) = skipped d := by
  unfold skipped
  rw [writerOwned_mask]
  exact or_bit d (by omega) (by omega)

@[simp] theorem readerBit_take : readerBit r (d ||| kdataDscWriterOwned) = readerBit r d := by
  unfold readerBit
  rw [writerOwned_mask]
  exact or_bit d (by omega) (readerBit_index_ne r (by decide)).symm

@[simp] theorem writerOwned_give : writerOwned (d &&& ~~~kdataDscWriterOwned) = false := by
  unfold writerOwned
  rw [writerOwned_mask]
  exact and_not_bit_self d

@[simp] theorem skipped_give : skipped (d &&& ~~~kdataDscWriterOwned) = skipped d := by
  unfold skipped
  rw [writerOwned_mask]
  exact and_not_bit d (by omega)

@[simp] theorem readerBit_give :
    readerBit r (d &&& ~~~kdataDscWriterOwned) = readerBit r d := by
  unfold readerBit
  rw [writerOwned_mask]
  exact and_not_bit d (readerBit_index_ne r (by decide)).symm

/-! ### A reader gives it back -/

theorem writerOwned_clear :
    writerOwned (d &&& ~~~kdataDscReaderBit r) = writerOwned d := by
  unfold writerOwned
  rw [readerBit_mask]
  exact and_not_bit d (readerBit_index_ne r (by decide))

theorem skipped_clear : skipped (d &&& ~~~kdataDscReaderBit r) = skipped d := by
  unfold skipped
  rw [readerBit_mask]
  exact and_not_bit d (readerBit_index_ne r (by decide))

theorem readerBit_clear :
    readerBit q (d &&& ~~~kdataDscReaderBit r) = (readerBit q d && !decide (q = r)) := by
  unfold readerBit
  rw [readerBit_mask, getLsbD_and_not_twoPow]
  simp [Fin.ext_iff]

theorem writerOwned_unskip : writerOwned (d &&& ~~~kdataDscSkipped) = writerOwned d := by
  unfold writerOwned
  rw [skipped_mask]
  exact and_not_bit d (by omega)

theorem skipped_unskip : skipped (d &&& ~~~kdataDscSkipped) = false := by
  unfold skipped
  rw [skipped_mask]
  exact and_not_bit_self d

theorem readerBit_unskip : readerBit r (d &&& ~~~kdataDscSkipped) = readerBit r d := by
  unfold readerBit
  rw [skipped_mask]
  exact and_not_bit d (readerBit_index_ne r (by decide)).symm

@[simp] theorem writerOwned_release : writerOwned (releaseVal r d) = writerOwned d := by
  simp only [releaseVal]
  split
  · split
    · rw [writerOwned_unskip, writerOwned_clear]
    · exact writerOwned_clear d r
  · exact writerOwned_clear d r

@[simp] theorem readerBit_release :
    readerBit q (releaseVal r d) = (readerBit q d && !decide (q = r)) := by
  simp only [releaseVal]
  split
  · split
    · rw [readerBit_unskip, readerBit_clear]
    · exact readerBit_clear d r q
  · exact readerBit_clear d r q

theorem skipped_release (h : skipped (releaseVal r d) = true) :
    ∃ q, q ≠ r ∧ readerBit q d = true := by
  by_contra hq
  push Not at hq
  have hnone : d &&& ~~~kdataDscReaderBit r &&& kdataDscReaderOwned = 0 := by
    rw [and_readerOwned]
    intro q
    rw [readerBit_clear]
    by_cases hqr : q = r
    · simp [hqr]
    · simpa [hqr] using hq q hqr
  simp only [releaseVal, hnone, if_true] at h
  split at h
  · rw [skipped_unskip] at h
    cases h
  · next hs =>
    rw [not_not, and_skipped] at hs
    rw [skipped_clear, hs] at h
    cases h

/-- A word without the bit and without the mark is written back as it was. -/
theorem releaseVal_eq_self (hr : readerBit r d = false) (hs : skipped d = false) :
    releaseVal r d = d := by
  rw [← and_skipped] at hs
  simp only [releaseVal, hs, ne_eq, not_true_eq_false, if_false]
  rw [readerBit_mask]
  apply BitVec.eq_of_getLsbD_eq
  intro i _
  rw [getLsbD_and_not_twoPow]
  by_cases hi : i = kdataDscReaderShift + r.val
  · subst hi
    unfold readerBit at hr
    rw [hr, Bool.false_and]
  · rw [decide_eq_false hi, Bool.not_false, Bool.and_true]

end Values

end Netp.Kring.Data
