import Netp.Lib.CString

/-! # The kernel's `sscanf`

Formats of `%c`, `%s`, `%ld` and white space, over a C string. What is scanned is the list of the values
that are stored, so its length is what `sscanf` returns. Nothing here names a program.

A number keeps its low 64 bits, and `%s` stores a word of any length.
-/

namespace Netp.Lib
set_option autoImplicit false

/-- A part of a format. -/
inductive Conv
  | space | char | word | long
  deriving DecidableEq

/-- A value that is stored. -/
inductive Arg
  | char (c : UInt8)
  | word (s : List UInt8)
  | long (v : ℤ)
  deriving DecidableEq

/-- `isspace` of the kernel, whose table has the no-break space of Latin-1. -/
def kisspace (c : UInt8) : Bool := isspace c || c == 160

def isdigit (c : UInt8) : Bool := decide (48 ≤ c ∧ c ≤ 57)

def skipSpaces (s : List UInt8) : List UInt8 := s.dropWhile kisspace

/-- The bytes up to the next white space. -/
def wordOf (s : List UInt8) : List UInt8 := s.takeWhile fun c => !kisspace c

def afterWord (s : List UInt8) : List UInt8 := s.dropWhile fun c => !kisspace c

/-- The conversion to a `long`. -/
def toLong (v : ℤ) : ℤ := v.bmod (2 ^ 64)

/-- The digits in front, as a number, and what is behind them; there must be one. -/
def scanDigits (s : List UInt8) : Option (ℕ × List UInt8) :=
  if s.takeWhile isdigit = [] then none
  else some (numVal 10 (s.takeWhile isdigit), s.dropWhile isdigit)

/-- `simple_strtol` in base 10, which takes a minus but no plus. -/
def scanLong : List UInt8 → Option (ℤ × List UInt8)
  | 45 :: s => (scanDigits s).map fun r => (toLong (-r.1), r.2)
  | s => (scanDigits s).map fun r => (toLong r.1, r.2)

/-- `sscanf` on the bytes before the terminating zero. -/
def sscanf : List Conv → List UInt8 → List Arg
  | [], _ => []
  | .space :: fs, s => sscanf fs (skipSpaces s)
  | _ :: _, [] => []
  | .char :: fs, c :: s => .char c :: sscanf fs s
  | .word :: fs, s =>
      let s := skipSpaces s
      .word (wordOf s) :: sscanf fs (afterWord s)
  | .long :: fs, s =>
      match scanLong (skipSpaces s) with
      | some (v, s) => .long v :: sscanf fs s
      | none => []

example : sscanf [.char, .space, .word, .space, .long] (bytes "b 10.0.0.1  -80 x") =
    [.char 98, .word (bytes "10.0.0.1"), .long (-80)] := by decide

/-! ## Text of values -/

/-- The conversion that reads such a value. -/
def Arg.conv : Arg → Conv
  | .char _ => .char
  | .word _ => .word
  | .long _ => .long

/-- The text of a value: a word is not empty and has no white space, a number is a `long`. -/
inductive Arg.Text : Arg → List UInt8 → Prop
  | char {c : UInt8} (hc : kisspace c = false) : Arg.Text (.char c) [c]
  | word {s : List UInt8} (hne : s ≠ []) (hs : ∀ c ∈ s, kisspace c = false) : Arg.Text (.word s) s
  | long {v : ℤ} (hlo : -2 ^ 63 ≤ v) (hhi : v < 2 ^ 63) : Arg.Text (.long v) (bytes (toString v))

/-- The values one after the other, with white space between them and perhaps behind the last. -/
inductive Printed : List Arg → List UInt8 → Prop
  | nil {gap : List UInt8} (hgap : ∀ c ∈ gap, kisspace c = true) : Printed [] gap
  | last {a : Arg} {t gap : List UInt8} (ha : a.Text t) (hgap : ∀ c ∈ gap, kisspace c = true) :
      Printed [a] (t ++ gap)
  | cons {a b : Arg} {as : List Arg} {t gap s : List UInt8} (ha : a.Text t) (hne : gap ≠ [])
      (hgap : ∀ c ∈ gap, kisspace c = true) (hs : Printed (b :: as) s) :
      Printed (a :: b :: as) (t ++ (gap ++ s))

/-! ## Digits -/

theorem digit_byte {d : ℕ} (h : d < 10) :
    isdigit d.digitChar.toNat.toUInt8 = true ∧ digitVal 10 d.digitChar.toNat.toUInt8 = some d := by
  interval_cases d <;> decide

theorem numVal_append (base : ℕ) (x : List UInt8) (c : UInt8) :
    numVal base (x ++ [c]) = numVal base x * base + (digitVal base c).getD 0 := by
  rw [numVal, List.foldl_append]
  rfl

/-- The digits of a number read back as the number. -/
theorem toDigits_read (n : ℕ) :
    (∀ c ∈ (Nat.toDigits 10 n).map fun c => c.toNat.toUInt8, isdigit c = true) ∧
      numVal 10 ((Nat.toDigits 10 n).map fun c => c.toNat.toUInt8) = n := by
  induction n using Nat.strong_induction_on with
  | _ n ih =>
    rw [Nat.toDigits_eq_if (by decide)]
    split_ifs with hlt
    · obtain ⟨hdigit, hval⟩ := digit_byte hlt
      constructor
      · intro c hc
        rw [List.map_singleton, List.mem_singleton] at hc
        rw [hc]
        exact hdigit
      · simp only [List.map_singleton, numVal, List.foldl_cons, List.foldl_nil, hval, Option.getD_some]
        omega
    · obtain ⟨hdigits, hval⟩ := ih (n / 10) (by omega)
      obtain ⟨hdigit, hlast⟩ := digit_byte (Nat.mod_lt n (by decide : 10 > 0))
      rw [List.map_append, List.map_singleton]
      constructor
      · intro c hc
        rcases List.mem_append.1 hc with hc | hc
        · exact hdigits c hc
        · rw [List.mem_singleton.1 hc]
          exact hdigit
      · rw [numVal_append, hval, hlast, Option.getD_some]
        omega

theorem repr_ne_nil (n : ℕ) : (Nat.toDigits 10 n).map (fun c => c.toNat.toUInt8) ≠ [] := by
  rw [Nat.toDigits_eq_if (by decide)]
  split_ifs <;> simp

/-! ## Reading values -/

section Reading
variable {a : Arg} {t s rest gap : List UInt8} {fs : List Conv}

/-- White space, or the end. -/
def Stops (s : List UInt8) : Prop := ∀ c ∈ s.head?, kisspace c = true

theorem skipSpaces_append (hgap : ∀ c ∈ gap, kisspace c = true)
    (hs : ∀ c ∈ s.head?, kisspace c = false) : skipSpaces (gap ++ s) = s := by
  rw [skipSpaces, List.dropWhile_append_of_pos hgap]
  cases s with
  | nil => rfl
  | cons c s => rw [List.dropWhile_cons_of_neg (by simp [hs c rfl])]

theorem wordOf_append (hs : ∀ c ∈ s, kisspace c = false) (hrest : Stops rest) :
    wordOf (s ++ rest) = s ∧ afterWord (s ++ rest) = rest := by
  have hall : ∀ c ∈ s, (!kisspace c) = true := fun c hc => by rw [hs c hc]; rfl
  rw [wordOf, afterWord, List.takeWhile_append_of_pos hall, List.dropWhile_append_of_pos hall]
  cases rest with
  | nil => simp
  | cons c rest => simp [hrest c rfl]

/-- No digit is white space or a minus. -/
theorem isdigit_byte {c : UInt8} (h : isdigit c = true) : kisspace c = false ∧ c ≠ 45 := by
  simp only [isdigit, UInt8.le_iff_toNat_le, UInt8.reduceToNat, decide_eq_true_eq] at h
  have hne : ∀ d : UInt8, d.toNat < 48 ∨ 57 < d.toNat → c ≠ d := by
    rintro d hd rfl
    omega
  refine ⟨?_, hne 45 (by decide)⟩
  simp only [kisspace, isspace, Bool.or_eq_false_iff, beq_eq_false_iff_ne, decide_eq_false_iff_not,
    UInt8.le_iff_toNat_le, ← UInt8.toNat_inj, UInt8.reduceToNat, ne_eq]
  omega

theorem scanDigits_append (hne : s ≠ []) (hs : ∀ c ∈ s, isdigit c = true) (hrest : Stops rest) :
    scanDigits (s ++ rest) = some (numVal 10 s, rest) := by
  have hstop : (rest.takeWhile isdigit = []) ∧ rest.dropWhile isdigit = rest := by
    cases rest with
    | nil => exact ⟨rfl, rfl⟩
    | cons c rest =>
      have hc : isdigit c = false := by
        by_contra hc
        have hdigit := (isdigit_byte (Bool.not_eq_false _ ▸ hc)).1
        rw [hrest c rfl] at hdigit
        cases hdigit
      simp [hc]
  rw [scanDigits, List.takeWhile_append_of_pos hs, List.dropWhile_append_of_pos hs, hstop.1, hstop.2,
    List.append_nil, if_neg hne]

theorem bytes_toString (v : ℤ) : bytes (toString v) =
    if v < 0 then 45 :: (Nat.toDigits 10 v.natAbs).map (fun c => c.toNat.toUInt8)
    else (Nat.toDigits 10 v.natAbs).map fun c => c.toNat.toUInt8 := by
  rw [bytes, Int.toString_eq_repr, Int.repr_eq_if]
  split_ifs with h <;> simp [Nat.toList_repr] <;> congr <;> omega

theorem Arg.Text.ne_nil (h : a.Text t) : t ≠ [] := by
  cases h with
  | char => exact List.cons_ne_nil _ _
  | word hne => exact hne
  | long =>
    rw [bytes_toString]
    split_ifs
    · exact List.cons_ne_nil _ _
    · exact repr_ne_nil _

theorem Arg.Text.no_space (h : a.Text t) : ∀ c ∈ t, kisspace c = false := by
  cases h with
  | char hc => simpa using hc
  | word _ hs => exact hs
  | @long v =>
    have hdigits := (toDigits_read v.natAbs).1
    intro c hc
    rw [bytes_toString] at hc
    split_ifs at hc
    · rcases List.mem_cons.1 hc with rfl | hc
      · decide
      · exact (isdigit_byte (hdigits c hc)).1
    · exact (isdigit_byte (hdigits c hc)).1

theorem scanLong_text {v : ℤ} (hlo : -2 ^ 63 ≤ v) (hhi : v < 2 ^ 63) (hrest : Stops rest) :
    scanLong (bytes (toString v) ++ rest) = some (v, rest) := by
  obtain ⟨hdigits, hval⟩ := toDigits_read v.natAbs
  have hscan := scanDigits_append (repr_ne_nil v.natAbs) hdigits hrest
  rw [hval] at hscan
  have hlong : toLong v = v := Int.bmod_eq_of_le (by omega) (by omega)
  rw [bytes_toString]
  split_ifs with hneg
  · have hv : (-(v.natAbs : ℤ)) = v := by omega
    rw [List.cons_append, scanLong, hscan, Option.map_some, hv, hlong]
  · have hv : (v.natAbs : ℤ) = v := by omega
    obtain ⟨c, ds, hds⟩ := List.exists_cons_of_ne_nil (repr_ne_nil v.natAbs)
    have hc : c ≠ 45 := (isdigit_byte (hdigits c (hds ▸ List.mem_cons_self))).2
    rw [hds] at hscan ⊢
    rw [List.cons_append] at hscan ⊢
    rw [scanLong.eq_def]
    split
    · next heq => exact absurd (List.cons.inj heq).1 hc
    · rw [hscan, Option.map_some, hv, hlong]

/-- A value is read from its text, up to white space or the end. -/
theorem sscanf_text (h : a.Text t) (hrest : Stops rest) :
    sscanf (a.conv :: fs) (t ++ rest) = a :: sscanf fs rest := by
  have hfirst : ∀ c ∈ (t ++ rest).head?, kisspace c = false := by
    obtain ⟨c, t', rfl⟩ := List.exists_cons_of_ne_nil h.ne_nil
    intro d hd
    cases hd
    exact h.no_space c List.mem_cons_self
  have hskip : skipSpaces (t ++ rest) = t ++ rest := skipSpaces_append (List.forall_mem_nil _) hfirst
  obtain ⟨c, t', htext⟩ := List.exists_cons_of_ne_nil h.ne_nil
  cases h with
  | char => rfl
  | word hne hs =>
    obtain ⟨hword, hafter⟩ := wordOf_append hs hrest
    simp only [Arg.conv]
    rw [sscanf.eq_def]
    subst htext
    simp only [List.cons_append] at hskip hword hafter ⊢
    rw [hskip, hword, hafter]
  | long hlo hhi =>
    have hscan := scanLong_text hlo hhi hrest
    simp only [Arg.conv]
    rw [sscanf.eq_def]
    rw [htext, List.cons_append] at hskip hscan ⊢
    simp only [hskip, hscan]

theorem sscanf_space (hgap : ∀ c ∈ gap, kisspace c = true) (hs : ∀ c ∈ s.head?, kisspace c = false) :
    sscanf (.space :: fs) (gap ++ s) = sscanf fs s := by
  rw [sscanf, skipSpaces_append hgap hs]

theorem Printed.head {as : List Arg} (h : Printed (a :: as) s) : ∀ c ∈ s.head?, kisspace c = false := by
  have hfirst : ∀ {t : List UInt8}, a.Text t → ∀ rest : List UInt8, ∀ c ∈ (t ++ rest).head?,
      kisspace c = false := by
    intro t ht rest c hc
    obtain ⟨d, t', rfl⟩ := List.exists_cons_of_ne_nil ht.ne_nil
    cases hc
    exact ht.no_space _ List.mem_cons_self
  cases h with
  | last ha => exact hfirst ha _
  | cons ha => exact hfirst ha _

/-- What is printed is scanned by the conversions with white space between them. -/
theorem sscanf_printed {args : List Arg} (h : Printed args s) :
    sscanf ((args.map Arg.conv).intersperse .space) s = args := by
  induction h with
  | nil => rfl
  | last ha hgap =>
    exact sscanf_text ha fun c hc => hgap c (List.mem_of_mem_head? hc)
  | @cons a b as t gap s ha hne hgap hs ih =>
    obtain ⟨c, gap, rfl⟩ := List.exists_cons_of_ne_nil hne
    have hstop : Stops (c :: gap ++ s) := by
      intro d hd
      cases hd
      exact hgap c List.mem_cons_self
    rw [List.map_cons, List.map_cons, List.intersperse_cons_cons, sscanf_text ha hstop,
      sscanf_space hgap hs.head, ← List.map_cons, ih]

end Reading

end Netp.Lib
