import Mathlib.Tactic
import Mathlib.Data.FinEnum

/-! # Strings and numbers of C

Buffers of bytes as C strings: what is before the first zero byte. `strtol` clamps to `long`, `atoi` and
the assignment to an `int` keep the low 32 bits. Nothing here names a program.
-/

namespace Netp.Lib
set_option autoImplicit false

/-- The bytes of a literal. -/
def bytes (s : String) : List UInt8 := s.toList.map fun c => c.toNat.toUInt8

/-- The C string at the start of a buffer. -/
def cstr (s : List UInt8) : List UInt8 := s.takeWhile (· ≠ 0)

def tolower (c : UInt8) : UInt8 := if 65 ≤ c ∧ c ≤ 90 then c + 32 else c

/-- `strcasecmp` is zero. -/
def strcaseeq (s t : List UInt8) : Bool := (cstr s).map tolower = (cstr t).map tolower

/-- `strncasecmp` is zero. -/
def strncaseeq (s t : List UInt8) (n : ℕ) : Bool := strcaseeq ((cstr s).take n) ((cstr t).take n)

/-- `strstr` is not null. -/
def strstr (s t : List UInt8) : Bool := decide (cstr t <:+: cstr s)

/-- `strchr`, of a byte that is not zero: where it is found first. -/
def strchr (s : List UInt8) (c : UInt8) : Option ℕ := (cstr s).findIdx? (· = c)

def isspace (c : UInt8) : Bool := c = 32 ∨ (9 ≤ c ∧ c ≤ 13)

/-- The value of a digit, in a base up to 36. -/
def digitVal (base : ℕ) (c : UInt8) : Option ℕ :=
  let v := if 48 ≤ c ∧ c ≤ 57 then c.toNat - 48
    else if 65 ≤ c ∧ c ≤ 90 then c.toNat - 55
    else if 97 ≤ c ∧ c ≤ 122 then c.toNat - 87
    else 36
  if v < base then some v else none

/-- The number at the start of a string. -/
def readDigits (base : ℕ) : ℕ → List UInt8 → ℕ
  | acc, [] => acc
  | acc, c :: cs =>
      match digitVal base c with
      | some d => readDigits base (acc * base + d) cs
      | none => acc

/-- The `0x` that base 16 allows. -/
def skip0x (base : ℕ) : List UInt8 → List UInt8
  | z :: x :: c :: cs =>
      if base = 16 ∧ z = 48 ∧ tolower x = 120 ∧ (digitVal 16 c).isSome then c :: cs
      else z :: x :: c :: cs
  | s => s

def clampLong (v : ℤ) : ℤ := max (-2 ^ 63) (min v (2 ^ 63 - 1))

def strtol (s : List UInt8) (base : ℕ) : ℤ :=
  match (cstr s).dropWhile isspace with
  | [] => 0
  | c :: cs =>
      if c = 45 then clampLong (-(readDigits base 0 (skip0x base cs) : ℤ))
      else if c = 43 then clampLong (readDigits base 0 (skip0x base cs))
      else clampLong (readDigits base 0 (skip0x base (c :: cs)))

/-- The conversion to `int`. -/
def toInt (v : ℤ) : ℤ := v.bmod (2 ^ 32)

def atoi (s : List UInt8) : ℤ := toInt (strtol s 10)

example : atoi (bytes " 128\r\n") = 128 := by decide

/-! ## Bytes -/

/-- A byte of a class is not one outside of it. -/
theorem byte_ne {p : UInt8 → Bool} {c d : UInt8} (hc : p c = true) (hd : p d = false) : c ≠ d := by
  rintro rfl
  rw [hc] at hd
  cases hd

theorem toNat_tolower (c : UInt8) :
    (tolower c).toNat = if 65 ≤ c.toNat ∧ c.toNat ≤ 90 then c.toNat + 32 else c.toNat := by
  simp only [tolower, UInt8.le_iff_toNat_le, UInt8.reduceToNat]
  split_ifs with hletter
  · rw [UInt8.toNat_add, Nat.mod_eq_of_lt (by simp; omega)]
    rfl
  · rfl

/-- Nothing but a byte below the letters is folded to it. -/
theorem tolower_eq {c d : UInt8} (hd : d < 65) : tolower c = d ↔ c = d := by
  simp only [UInt8.lt_iff_toNat_lt, UInt8.reduceToNat] at hd
  rw [← UInt8.toNat_inj, ← UInt8.toNat_inj, toNat_tolower]
  split_ifs
  · omega
  · rfl

/-- The digits of a base up to sixteen. -/
theorem toNat_of_digit {base : ℕ} (hb : base ≤ 16) {c : UInt8} (h : (digitVal base c).isSome) :
    48 ≤ c.toNat ∧ c.toNat ≤ 57 ∨ 65 ≤ c.toNat ∧ c.toNat ≤ 70 ∨ 97 ≤ c.toNat ∧ c.toNat ≤ 102 := by
  have hval : digitVal base c ≠ none := Option.isSome_iff_ne_none.mp h
  simp only [digitVal, UInt8.le_iff_toNat_le, UInt8.reduceToNat] at hval
  have hlt := (ite_ne_right_iff.mp hval).1
  split_ifs at hlt <;> omega

/-! ## C strings -/

theorem strchr_some {s : List UInt8} {c : UInt8} {i : ℕ} (h : strchr s c = some i) : (cstr s)[i]? = some c := by
  obtain ⟨hi, hc, -⟩ := List.findIdx?_eq_some_iff_getElem.1 h
  rw [List.getElem?_eq_getElem hi, of_decide_eq_true hc]

theorem strchr_isSome {s : List UInt8} {c : UInt8} (h : c ∈ cstr s) : (strchr s c).isSome = true := by
  rw [strchr, List.findIdx?_isSome, List.any_eq_true]
  exact ⟨c, h, decide_eq_true rfl⟩

theorem cstr_append_zero {s : List UInt8} (h : ∀ c ∈ s, c ≠ 0) (t : List UInt8) :
    cstr (s ++ 0 :: t) = s := by
  induction s with
  | nil => rfl
  | cons c s ih =>
    have hc : c ≠ 0 := h c List.mem_cons_self
    have hs : ∀ c ∈ s, c ≠ 0 := fun c hc => h c (List.mem_cons_of_mem _ hc)
    have htail := ih hs
    simp only [cstr] at htail ⊢
    rw [List.cons_append, List.takeWhile_cons_of_pos (by simpa using hc), htail]

theorem cstr_concat_zero (s : List UInt8) : cstr (s ++ [0]) = cstr s := by
  induction s with
  | nil => rfl
  | cons c s ih =>
    by_cases hc : c = 0
    · simp [cstr, hc]
    · simpa [cstr, hc] using ih

theorem cstr_eq_self {s : List UInt8} (h : ∀ c ∈ s, c ≠ 0) : cstr s = s := by
  induction s with
  | nil => rfl
  | cons c s ih =>
    have hc : c ≠ 0 := h c List.mem_cons_self
    have htail := ih fun c hc => h c (List.mem_cons_of_mem _ hc)
    simp only [cstr] at htail ⊢
    rw [List.takeWhile_cons_of_pos (by simpa using hc), htail]

/-- `strncasecmp` of strings without zero bytes. -/
theorem strncaseeq_iff {s t : List UInt8} {n : ℕ} (hs : ∀ c ∈ s, c ≠ 0) (ht : ∀ c ∈ t, c ≠ 0) :
    strncaseeq s t n = true ↔ (s.take n).map tolower = (t.take n).map tolower := by
  have hs' : ∀ c ∈ s.take n, c ≠ 0 := fun c hc => hs c (List.mem_of_mem_take hc)
  have ht' : ∀ c ∈ t.take n, c ≠ 0 := fun c hc => ht c (List.mem_of_mem_take hc)
  simp only [strncaseeq, strcaseeq, cstr_eq_self hs, cstr_eq_self ht, cstr_eq_self hs',
    cstr_eq_self ht', decide_eq_true_eq]

/-! ## Numbers -/

/-- The value of a list of digits. -/
def numVal (base : ℕ) (ds : List UInt8) : ℕ :=
  ds.foldl (fun acc c => acc * base + (digitVal base c).getD 0) 0

theorem readDigits_append {base : ℕ} {ds : List UInt8} (hds : ∀ c ∈ ds, (digitVal base c).isSome)
    {rest : List UInt8} (hrest : ∀ c, rest.head? = some c → digitVal base c = none) (acc : ℕ) :
    readDigits base acc (ds ++ rest) =
      ds.foldl (fun acc c => acc * base + (digitVal base c).getD 0) acc := by
  induction ds generalizing acc with
  | nil =>
    cases rest with
    | nil => rfl
    | cons c rest => simp only [List.nil_append, readDigits, hrest c rfl, List.foldl_nil]
  | cons c ds ih =>
    obtain ⟨d, hd⟩ := Option.isSome_iff_exists.mp (hds c List.mem_cons_self)
    have htail : ∀ c ∈ ds, (digitVal base c).isSome := fun c hc => hds c (List.mem_cons_of_mem _ hc)
    simp only [List.cons_append, readDigits, hd, List.foldl_cons, Option.getD_some]
    exact ih htail (acc * base + d)

theorem skip0x_of_ne {base : ℕ} (h : base ≠ 16) (s : List UInt8) : skip0x base s = s := by
  match s with
  | [] => rfl
  | [_] => rfl
  | [_, _] => rfl
  | _ :: _ :: _ :: _ => rw [skip0x, if_neg (fun hc => h hc.1)]

/-- No digit of base 16 is an `x`. -/
theorem skip0x_of_digits {s : List UInt8} (h : ∀ c ∈ s, (digitVal 16 c).isSome) : skip0x 16 s = s := by
  match s with
  | [] => rfl
  | [_] => rfl
  | [_, _] => rfl
  | z :: x :: c :: cs =>
    have hrange := toNat_of_digit le_rfl (h x (by simp))
    have hne : tolower x ≠ 120 := by
      rw [← UInt8.toNat_inj.ne, toNat_tolower]
      split_ifs <;> simp only [UInt8.reduceToNat] <;> omega
    rw [skip0x, if_neg (fun hc => hne hc.2.2.1)]

theorem clampLong_of_lt {n : ℕ} (h : n < 2 ^ 31) : clampLong n = n := by
  unfold clampLong
  omega

theorem toInt_of_lt {v : ℤ} (hlo : -2 ^ 31 ≤ v) (hhi : v < 2 ^ 31) : toInt v = v := by
  unfold toInt
  exact Int.bmod_eq_of_le (by omega) (by omega)

theorem isspace_of_digit {base : ℕ} {c : UInt8} (hb : base ≤ 16) (h : (digitVal base c).isSome) :
    isspace c = false ∧ c ≠ 45 ∧ c ≠ 43 ∧ c ≠ 0 := by
  have hrange := toNat_of_digit hb h
  have hne : ∀ d : UInt8, d.toNat < 48 → c ≠ d := by
    rintro d hd rfl
    omega
  refine ⟨?_, hne 45 (by decide), hne 43 (by decide), hne 0 (by decide)⟩
  simp only [isspace, UInt8.le_iff_toNat_le, ← UInt8.toNat_inj, UInt8.reduceToNat, decide_eq_false_iff_not]
  omega

/-- A number in the middle of a string, after white space. -/
theorem strtol_digits {base : ℕ} (hbase : base = 10 ∨ base = 16) {pre ds rest tail : List UInt8}
    (hpre : ∀ c ∈ pre, isspace c = true) (hne : ds ≠ []) (hds : ∀ c ∈ ds, (digitVal base c).isSome)
    (hrest : ∀ c, rest.head? = some c → digitVal base c = none) (hzero : ∀ c ∈ rest, c ≠ 0)
    (h16 : base = 16 → rest = []) (hlt : numVal base ds < 2 ^ 31) :
    strtol (pre ++ ds ++ rest ++ 0 :: tail) base = numVal base ds := by
  have hle : base ≤ 16 := by omega
  have hdigit : ∀ c ∈ ds, isspace c = false ∧ c ≠ 45 ∧ c ≠ 43 ∧ c ≠ 0 :=
    fun c hc => isspace_of_digit hle (hds c hc)
  have hspace : ∀ c : UInt8, isspace c = true → c ≠ 0 := fun _ hc => byte_ne hc rfl
  have hcstr : cstr (pre ++ ds ++ rest ++ 0 :: tail) = pre ++ ds ++ rest := by
    refine cstr_append_zero (fun c hc => ?_) tail
    simp only [List.mem_append] at hc
    obtain (hc | hc) | hc := hc
    · exact hspace c (hpre c hc)
    · exact (hdigit c hc).2.2.2
    · exact hzero c hc
  obtain ⟨d, ds', rfl⟩ := List.exists_cons_of_ne_nil hne
  obtain ⟨hsp, hminus, hplus, -⟩ := hdigit d List.mem_cons_self
  have hdrop : (pre ++ (d :: ds') ++ rest).dropWhile isspace = d :: (ds' ++ rest) := by
    rw [List.append_assoc, List.dropWhile_append_of_pos hpre, List.cons_append,
      List.dropWhile_cons_of_neg (by simp [hsp])]
  have hskip : skip0x base (d :: (ds' ++ rest)) = (d :: ds') ++ rest := by
    rcases hbase with rfl | rfl
    · exact skip0x_of_ne (by decide) _
    · rw [h16 rfl, List.append_nil, List.append_nil]
      exact skip0x_of_digits hds
  have hread : readDigits base 0 (d :: ds' ++ rest) = numVal base (d :: ds') :=
    readDigits_append hds hrest 0
  simp only [strtol, hcstr, hdrop, hminus, hplus, if_false, hskip, hread]
  exact clampLong_of_lt hlt

end Netp.Lib
