import Netp.Lib.CString

/-! # The names in a certificate

`Thread::checkName` and `Thread::hostMatch` (`genf/tls.cc`). The library that reads the certificate is a
parameter. `X509_get_ext_d2i` returns the subject alternative names of a certificate that has one such
extension which can be decoded, and a null pointer otherwise: for a certificate without the extension,
but also for one with two of them, or with one that cannot be decoded. `hostMatch` goes on to the common
names in all of these cases.
-/

namespace Netp.Genf
open Netp.Lib
set_option autoImplicit false

/-! ## Certificates -/

/-- `GENERAL_NAME`: a `dNSName`, or a name of another type. -/
inductive GeneralName
  | dNSName (data : List UInt8)
  | other

/-- `X509_NAME_ENTRY`. -/
structure NameEntry where
  nid : ℕ
  data : List UInt8

/-- What is in a certificate. -/
structure X509 where
  /-- Its subject alternative name extensions, each with what it is decoded to. -/
  altNames : List (Option (List GeneralName))
  /-- Its subject, unless there is none. -/
  subject : Option (List NameEntry)

def NID_commonName : ℕ := 13

/-- The functions of the library. -/
structure X509Library where
  /-- `X509_get_ext_d2i` for `NID_subject_alt_name`, without the last two arguments. -/
  getExtD2i : X509 → Option (List GeneralName)
  /-- `X509_NAME_get_index_by_NID` -/
  getIndexByNID : List NameEntry → ℕ → ℤ → ℤ

/-- There is an entry of a kind at an index. -/
def EntryAt (entries : List NameEntry) (nid : ℕ) (i : ℤ) : Prop :=
  ∃ (j : ℕ) (e : NameEntry), (j : ℤ) = i ∧ entries[j]? = some e ∧ e.nid = nid

/-- What the library is documented to do. -/
structure X509Library.Documented (L : X509Library) : Prop where
  ext : ∀ cert names, L.getExtD2i cert = some names ↔ cert.altNames = [some names]
  /-- The next index after `lastpos`, or a negative number if there are no more entries. -/
  index : ∀ entries nid lastpos, -1 ≤ lastpos →
    (0 ≤ L.getIndexByNID entries nid lastpos → lastpos < L.getIndexByNID entries nid lastpos ∧
      EntryAt entries nid (L.getIndexByNID entries nid lastpos)) ∧
    ∀ i, lastpos < i → (0 ≤ L.getIndexByNID entries nid lastpos →
      i < L.getIndexByNID entries nid lastpos) → ¬ EntryAt entries nid i

/-! ## The check -/

/-- `strchr` -/
def strchr (s : List UInt8) (c : UInt8) : Option (List UInt8) :=
  match s.dropWhile (· ≠ c) with
  | [] => none
  | c :: s => some (c :: s)

/-- `checkName`, for the bytes of a name before its zero byte. -/
def checkName (name pattern : List UInt8) : Bool :=
  let slen := name.length
  let plen := pattern.length
  if plen > 2 ∧ pattern[0]? = some 42 ∧ pattern[1]? = some 46 then
    match strchr name 46 with
    | none => false
    | some subj =>
        -- `subj - name` is what is before the first dot.
        let slen := slen - (name.length - subj.length)
        slen = plen - 1 ∧ strncaseeq subj (pattern.drop 1) slen
  else slen = plen ∧ strncaseeq name pattern slen

section HostMatch
variable (L : X509Library)

/-- The loop over the common names, with fuel for its rounds. -/
def checkCommonNames (sname : List NameEntry) (name : List UInt8) : ℕ → ℤ → Option Bool
  | 0, _ => none
  | fuel + 1, i =>
      let i := L.getIndexByNID sname NID_commonName i
      if i < 0 then some false
      else
        match sname[i.toNat]? with
        | none => none
        | some entry =>
            if checkName name entry.data then some true else checkCommonNames sname name fuel i

/-- `hostMatch` -/
def hostMatch (fuel : ℕ) (cert : X509) (name : List UInt8) : Option Bool :=
  match L.getExtD2i cert with
  | some altnames =>
      some (altnames.any fun altname =>
        match altname with
        | .dNSName pat => checkName name pat
        | .other => false)
  | none =>
      match cert.subject with
      | none => some false
      | some sname => checkCommonNames L sname name fuel (-1)

end HostMatch

/-! ## Patterns -/

/-- A pattern matches the name that it is, but for the case, and one that begins with a wildcard matches
the names with any one label in its place. -/
def Matches (name pattern : List UInt8) : Prop :=
  pattern.map tolower = name.map tolower ∨
    ∃ s l s', pattern = 42 :: 46 :: s ∧ s ≠ [] ∧ name = l ++ 46 :: s' ∧ 46 ∉ l ∧
      s'.map tolower = s.map tolower

theorem strchr_some {s t : List UInt8} {c : UInt8} :
    strchr s c = some t ↔ ∃ l s', t = c :: s' ∧ s = l ++ c :: s' ∧ c ∉ l := by
  induction s with
  | nil => simp [strchr]
  | cons d s ih =>
    by_cases hd : d = c
    · subst hd
      have hself : strchr (d :: s) d = some (d :: s) := by simp [strchr]
      rw [hself, Option.some.injEq]
      constructor
      · rintro rfl
        exact ⟨[], s, rfl, rfl, List.not_mem_nil⟩
      · rintro ⟨l, s', rfl, hs, hl⟩
        cases l with
        | nil => exact hs
        | cons e l =>
          rw [List.cons_append, List.cons.injEq] at hs
          exact absurd (hs.1 ▸ List.mem_cons_self) hl
    · have hskip : strchr (d :: s) c = strchr s c := by simp [strchr, hd]
      rw [hskip, ih]
      constructor
      · rintro ⟨l, s', rfl, rfl, hl⟩
        refine ⟨d :: l, s', rfl, rfl, ?_⟩
        rw [List.mem_cons, not_or]
        exact ⟨Ne.symm hd, hl⟩
      · rintro ⟨l, s', rfl, hs, hl⟩
        cases l with
        | nil => exact absurd (List.cons.inj hs).1 hd
        | cons e l =>
          rw [List.mem_cons, not_or] at hl
          exact ⟨l, s', rfl, (List.cons.inj hs).2, hl.2⟩

theorem strchr_none {s : List UInt8} {c : UInt8} (h : strchr s c = none) : c ∉ s := by
  intro hmem
  obtain ⟨l, s', hs, hl⟩ := List.eq_append_cons_of_mem hmem
  have hsome := strchr_some.mpr ⟨l, s', rfl, hs, hl⟩
  rw [h] at hsome
  cases hsome

theorem no_zero_of_map {s t : List UInt8} (ht : ∀ c ∈ t, c ≠ 0) (h : t.map tolower = s.map tolower) :
    ∀ c ∈ s, c ≠ 0 := by
  rintro c hc rfl
  have hzero : tolower 0 ∈ t.map tolower := h ▸ List.mem_map_of_mem hc
  obtain ⟨d, hd, hlow⟩ := List.mem_map.mp hzero
  exact ht d hd ((tolower_eq (by decide)).mp hlow)

theorem strncaseeq_length {s t : List UInt8} (hs : ∀ c ∈ s, c ≠ 0) (hlen : s.length = t.length) :
    strncaseeq s t s.length = true ↔ t.map tolower = s.map tolower := by
  have htake : (cstr t).take s.length = cstr t := by
    refine List.take_of_length_le ?_
    rw [hlen]
    exact (List.takeWhile_prefix _).length_le
  have hagain : cstr (cstr t) = cstr t :=
    cstr_eq_self fun c hc => by simpa using List.all_eq_true.mp List.all_takeWhile c hc
  rw [strncaseeq, strcaseeq, cstr_eq_self hs, List.take_length, htake, hagain, cstr_eq_self hs,
    decide_eq_true_eq]
  constructor
  · intro h
    have hcount : (cstr t).length = t.length := by
      rw [← hlen, ← List.length_map tolower, ← h, List.length_map]
    have hwhole : cstr t = t := (List.takeWhile_prefix _).eq_of_length hcount
    rw [h, hwhole]
  · intro h
    rw [cstr_eq_self (no_zero_of_map hs h.symm), h]

/-- A wildcard with something behind it, against what is behind the first dot. -/
theorem checkName_wildcard {name s : List UInt8} (hname : ∀ c ∈ name, c ≠ 0) (hs : s ≠ []) :
    checkName name (42 :: 46 :: s) = true ↔
      ∃ l s', name = l ++ 46 :: s' ∧ 46 ∉ l ∧ s'.map tolower = s.map tolower := by
  have hlong : (42 :: 46 :: s).length > 2 ∧ (42 :: 46 :: s)[0]? = some 42 ∧
      (42 :: 46 :: s)[1]? = some 46 := by
    have hpos := List.length_pos_of_ne_nil hs
    exact ⟨by simp only [List.length_cons]; omega, rfl, rfl⟩
  rw [checkName, if_pos hlong]
  cases hfirst : strchr name 46 with
  | none =>
    refine iff_of_false (by simp) ?_
    rintro ⟨l, s', rfl, -, -⟩
    exact strchr_none hfirst (by simp)
  | some subj =>
    obtain ⟨l, s', rfl, rfl, hl⟩ := strchr_some.mp hfirst
    have hrest : ∀ c ∈ 46 :: s', c ≠ 0 := fun c hc => hname c (List.mem_append_right l hc)
    have hslen : (l ++ 46 :: s').length - ((l ++ 46 :: s').length - (46 :: s').length) =
        (46 :: s').length := by
      rw [List.length_append]
      omega
    have hplen : (42 :: 46 :: s).length - 1 = (46 :: s).length := rfl
    have hpat : (42 :: 46 :: s).drop 1 = 46 :: s := rfl
    simp only [hslen, hplen, hpat, decide_eq_true_eq]
    constructor
    · rintro ⟨hlen, heq⟩
      have hmap := (strncaseeq_length hrest hlen).mp heq
      rw [List.map_cons, List.map_cons, List.cons.injEq] at hmap
      exact ⟨l, s', rfl, hl, hmap.2.symm⟩
    · rintro ⟨l', s'', heq, hl', hmap⟩
      have hsame : some (46 :: s') = some (46 :: s'') := by
        rw [← strchr_some.mpr ⟨l, s', rfl, rfl, hl⟩, heq, strchr_some.mpr ⟨l', s'', rfl, rfl, hl'⟩]
      obtain rfl : s' = s'' := by simpa using hsame
      have hlen : (46 :: s').length = (46 :: s).length := by
        rw [List.length_cons, List.length_cons, ← List.length_map tolower, hmap, List.length_map]
      refine ⟨hlen, (strncaseeq_length hrest hlen).mpr ?_⟩
      rw [List.map_cons, List.map_cons, hmap]

theorem checkName_iff {name : List UInt8} (hname : ∀ c ∈ name, c ≠ 0) (pattern : List UInt8) :
    checkName name pattern = true ↔ Matches name pattern := by
  by_cases hwild : ∃ s, s ≠ [] ∧ pattern = 42 :: 46 :: s
  · obtain ⟨s, hs, rfl⟩ := hwild
    rw [checkName_wildcard hname hs]
    constructor
    · rintro ⟨l, s', hsplit, hl, hmap⟩
      exact .inr ⟨s, l, s', rfl, hs, hsplit, hl, hmap⟩
    · rintro (heq | ⟨s', l, s'', hpat, -, hsplit, hl, hmap⟩)
      · -- A name that begins with a wildcard itself.
        cases name with
        | nil => simp at heq
        | cons c name =>
          cases name with
          | nil => simp at heq
          | cons d name =>
            simp only [List.map_cons, List.cons.injEq] at heq
            obtain ⟨hstar, hdot, hmap⟩ := heq
            have hstar' : tolower 42 = 42 := by decide
            have hdot' : tolower 46 = 46 := by decide
            rw [hstar', eq_comm, tolower_eq (by decide)] at hstar
            rw [hdot', eq_comm, tolower_eq (by decide)] at hdot
            subst hstar hdot
            exact ⟨[42], name, rfl, by decide, hmap.symm⟩
      · cases hpat
        exact ⟨l, s'', hsplit, hl, hmap⟩
  · have hplain : ¬ (pattern.length > 2 ∧ pattern[0]? = some 42 ∧ pattern[1]? = some 46) := by
      rintro ⟨hlen, hstar, hdot⟩
      cases pattern with
      | nil => cases hstar
      | cons c pattern =>
        cases pattern with
        | nil => cases hdot
        | cons d pattern =>
          refine hwild ⟨pattern, ?_, ?_⟩
          · rintro rfl
            simp at hlen
          · simp only [List.getElem?_cons_zero, List.getElem?_cons_succ, Option.some.injEq] at hstar hdot
            rw [hstar, hdot]
    rw [checkName, if_neg hplain, decide_eq_true_eq]
    constructor
    · rintro ⟨hlen, heq⟩
      exact .inl ((strncaseeq_length hname hlen).mp heq)
    · rintro (heq | ⟨s, -, -, hpat, hs, -⟩)
      · have hlen : name.length = pattern.length := by
          rw [← List.length_map tolower, ← heq, List.length_map]
        exact ⟨hlen, (strncaseeq_length hname hlen).mpr heq⟩
      · exact absurd ⟨s, hs, hpat⟩ hwild

theorem count_dot_map (s : List UInt8) : (s.map tolower).count 46 = s.count 46 := by
  induction s with
  | nil => rfl
  | cons c s ih =>
    rw [List.map_cons, List.count_cons, List.count_cons, ih]
    by_cases hc : c = 46
    · subst hc
      rfl
    · have hc' : ¬ tolower c = 46 := fun h => hc ((tolower_eq (by decide)).mp h)
      simp [hc, hc']

/-- A name has as many labels as the patterns that it matches: a wildcard stands for one. -/
theorem Matches.labels {name pattern : List UInt8} (h : Matches name pattern) :
    name.count 46 = pattern.count 46 := by
  obtain heq | ⟨s, l, s', rfl, -, rfl, hl, hmap⟩ := h
  · rw [← count_dot_map name, ← heq, count_dot_map]
  · have hsame : s'.count 46 = s.count 46 := by
      rw [← count_dot_map s', hmap, count_dot_map]
    rw [List.count_append, List.count_eq_zero_of_not_mem hl, List.count_cons, List.count_cons,
      List.count_cons, hsame]
    simp

theorem Matches.no_zero {name pattern : List UInt8} (hname : ∀ c ∈ name, c ≠ 0)
    (h : Matches name pattern) : 0 ∉ pattern := by
  obtain heq | ⟨s, l, s', rfl, -, rfl, -, heq⟩ := h
  · exact fun hmem => no_zero_of_map hname heq.symm 0 hmem rfl
  · have hs : ∀ c ∈ s, c ≠ 0 := no_zero_of_map (fun c hc => hname c (by simp [hc])) heq
    have hzero : 0 ∉ s := fun hmem => hs 0 hmem rfl
    simpa using hzero

/-! ## Certificates and names -/

/-- A `dNSName` of the certificate matches. -/
def AltMatches (cert : X509) (name : List UInt8) : Prop :=
  ∃ names, some names ∈ cert.altNames ∧ ∃ data, .dNSName data ∈ names ∧ Matches name data

/-- A common name of the certificate matches. -/
def CommonMatches (cert : X509) (name : List UInt8) : Prop :=
  ∃ entries, cert.subject = some entries ∧
    ∃ e ∈ entries, e.nid = NID_commonName ∧ Matches name e.data

/-- What the check is to say: the common names count only where there are no other names. -/
def NameOf (cert : X509) (name : List UInt8) : Prop :=
  AltMatches cert name ∨ (cert.altNames = [] ∧ CommonMatches cert name)

section Library
variable {L : X509Library} {name : List UInt8}

theorem checkCommonNames_spec (hL : L.Documented) (hname : ∀ c ∈ name, c ≠ 0)
    (sname : List NameEntry) (fuel : ℕ) (i : ℤ) (hi : -1 ≤ i) (hlt : i < sname.length)
    (hfuel : sname.length ≤ i + fuel) :
    ∃ b, checkCommonNames L sname name fuel i = some b ∧ (b = true ↔
      ∃ (j : ℕ) (e : NameEntry), i < j ∧ sname[j]? = some e ∧ e.nid = NID_commonName ∧
        Matches name e.data) := by
  induction fuel generalizing i with
  | zero =>
    have hno : False := by omega
    exact hno.elim
  | succ fuel ih =>
    obtain ⟨hfound, hskip⟩ := hL.index sname NID_commonName i hi
    by_cases hneg : L.getIndexByNID sname NID_commonName i < 0
    · refine ⟨false, by rw [checkCommonNames]; simp only [hneg, if_true], ?_⟩
      refine iff_of_false Bool.false_ne_true ?_
      rintro ⟨j, e, hj, hget, hnid, -⟩
      exact hskip j hj (fun hpos => by omega) ⟨j, e, rfl, hget, hnid⟩
    · obtain ⟨hafter, k, e, hk, hget, hnid⟩ := hfound (by omega)
      have hround : checkCommonNames L sname name (fuel + 1) i =
          if checkName name e.data then some true else checkCommonNames L sname name fuel k := by
        rw [checkCommonNames]
        simp only [← hk, Int.toNat_natCast, hget]
        simp
      by_cases hcheck : checkName name e.data = true
      · refine ⟨true, by rw [hround, if_pos hcheck], iff_of_true rfl ?_⟩
        exact ⟨k, e, by omega, hget, hnid, (checkName_iff hname e.data).mp hcheck⟩
      · obtain ⟨hklt, -⟩ := List.getElem?_eq_some_iff.mp hget
        obtain ⟨b, hb, hiff⟩ := ih k (by omega) (by omega) (by omega)
        refine ⟨b, by rw [hround, if_neg hcheck, hb], hiff.trans ?_⟩
        constructor
        · rintro ⟨j, e', hj, hrest⟩
          exact ⟨j, e', by omega, hrest⟩
        · rintro ⟨j, e', hj, hget', hnid', hmatch⟩
          refine ⟨j, e', ?_, hget', hnid', hmatch⟩
          rcases lt_trichotomy j k with hjk | rfl | hjk
          · exact absurd ⟨j, e', rfl, hget', hnid'⟩ (hskip j hj fun _ => by omega)
          · rw [hget, Option.some.injEq] at hget'
            subst hget'
            exact absurd ((checkName_iff hname e.data).mpr hmatch) hcheck
          · omega

theorem hostMatch_common (hL : L.Documented) (hname : ∀ c ∈ name, c ≠ 0) {cert : X509} {fuel : ℕ}
    (hfuel : ∀ entries, cert.subject = some entries → entries.length < fuel)
    (hext : L.getExtD2i cert = none) :
    ∃ b, hostMatch L fuel cert name = some b ∧ (b = true ↔ CommonMatches cert name) := by
  cases hsubject : cert.subject with
  | none =>
    refine ⟨false, by rw [hostMatch, hext, hsubject], iff_of_false Bool.false_ne_true ?_⟩
    rintro ⟨entries, hentries, -⟩
    rw [hsubject] at hentries
    cases hentries
  | some sname =>
    have hlen := hfuel sname hsubject
    obtain ⟨b, hb, hiff⟩ := checkCommonNames_spec hL hname sname fuel (-1) (by omega) (by omega)
      (by omega)
    refine ⟨b, by rw [hostMatch, hext, hsubject]; exact hb, hiff.trans ?_⟩
    constructor
    · rintro ⟨j, e, -, hget, hnid, hmatch⟩
      exact ⟨sname, hsubject, e, List.mem_of_getElem? hget, hnid, hmatch⟩
    · rintro ⟨entries, hentries, e, he, hnid, hmatch⟩
      rw [hsubject, Option.some.injEq] at hentries
      subst hentries
      obtain ⟨j, hj⟩ := List.mem_iff_getElem?.mp he
      exact ⟨j, e, by omega, hj, hnid, hmatch⟩

theorem hostMatch_alt (hname : ∀ c ∈ name, c ≠ 0) {cert : X509} (fuel : ℕ)
    {names : List GeneralName} (hext : L.getExtD2i cert = some names)
    (hcert : cert.altNames = [some names]) :
    ∃ b, hostMatch L fuel cert name = some b ∧ (b = true ↔ AltMatches cert name) := by
  refine ⟨_, by rw [hostMatch, hext], ?_⟩
  rw [List.any_eq_true]
  constructor
  · rintro ⟨altname, hmem, hcheck⟩
    cases altname with
    | dNSName data =>
      exact ⟨names, by simp [hcert], data, hmem, (checkName_iff hname data).mp hcheck⟩
    | other => cases hcheck
  · rintro ⟨names', hmem, data, hdata, hmatch⟩
    rw [hcert, List.mem_singleton, Option.some.injEq] at hmem
    subst hmem
    exact ⟨_, hdata, (checkName_iff hname data).mpr hmatch⟩

/-- The check says what it is to say of a certificate that has no alternative names, or one extension of
them that can be decoded; of any other one only if its common names happen to agree with them. -/
theorem hostMatch_iff (hL : L.Documented) (hname : ∀ c ∈ name, c ≠ 0) (cert : X509) {fuel : ℕ}
    (hfuel : ∀ entries, cert.subject = some entries → entries.length < fuel) :
    (∀ pattern, Matches name pattern → name.count 46 = pattern.count 46 ∧ 0 ∉ pattern) ∧
      (∃ b, hostMatch L fuel cert name = some b) ∧
      ((hostMatch L fuel cert name = some true ↔ NameOf cert name) ↔
        cert.altNames = [] ∨ (∃ names, cert.altNames = [some names]) ∨
          (CommonMatches cert name ↔ AltMatches cert name)) := by
  refine ⟨fun pattern h => ⟨h.labels, h.no_zero hname⟩, ?_⟩
  cases hext : L.getExtD2i cert with
  | some names =>
    have hcert := (hL.ext cert names).mp hext
    obtain ⟨b, hb, hiff⟩ := hostMatch_alt hname fuel hext hcert
    refine ⟨⟨b, hb⟩, iff_of_true ?_ (.inr (.inl ⟨names, hcert⟩))⟩
    have hsome : ¬ cert.altNames = [] := by simp [hcert]
    rw [hb, Option.some.injEq, hiff, NameOf]
    simp only [hsome, false_and, or_false]
  | none =>
    obtain ⟨b, hb, hiff⟩ := hostMatch_common hL hname hfuel hext
    refine ⟨⟨b, hb⟩, ?_⟩
    have hone : ¬ ∃ names, cert.altNames = [some names] := by
      rintro ⟨names, hnames⟩
      have hsome := (hL.ext cert names).mpr hnames
      rw [hext] at hsome
      cases hsome
    rw [hb, Option.some.injEq, hiff, NameOf]
    by_cases hempty : cert.altNames = []
    · have hnone : ¬ AltMatches cert name := by
        rintro ⟨names, hmem, -⟩
        rw [hempty] at hmem
        cases hmem
      simp only [hempty, hnone, true_and, false_or, true_or]
    · simp only [hempty, hone, false_and, or_false, false_or]

end Library

/-! ## Two extensions -/

/-- A library that does what is documented. -/
def X509Library.plain : X509Library where
  getExtD2i cert :=
    match cert.altNames with
    | [names] => names
    | _ => none
  getIndexByNID entries nid lastpos :=
    match (List.range entries.length).find? fun j : ℕ =>
        lastpos < j ∧ (entries[j]?.any fun e => e.nid = nid) with
    | some j => j
    | none => -1

theorem X509Library.plain_documented : X509Library.plain.Documented where
  ext cert names := by
    simp only [plain]
    rcases cert.altNames with _ | ⟨a, _ | ⟨b, l⟩⟩ <;> simp
  index entries nid lastpos hlast := by
    simp only [plain]
    cases hfind : (List.range entries.length).find? fun j : ℕ =>
        lastpos < j ∧ (entries[j]?.any fun e => e.nid = nid) with
    | none =>
      rw [List.find?_range_eq_none] at hfind
      refine ⟨fun h => absurd h (by decide), ?_⟩
      rintro i hi - ⟨j, e, rfl, hget, hnid⟩
      obtain ⟨hlt, -⟩ := List.getElem?_eq_some_iff.mp hget
      simpa [hget, hnid, hi] using hfind j hlt
    | some k =>
      rw [List.find?_range_eq_some] at hfind
      obtain ⟨hk, -, hbefore⟩ := hfind
      simp only [decide_eq_true_eq] at hk
      obtain ⟨e, hget, hnid⟩ := (Option.any_eq_true _ _).mp hk.2
      refine ⟨fun _ => ⟨hk.1, k, e, rfl, hget, by simpa using hnid⟩, ?_⟩
      rintro i hi hik ⟨j, e', rfl, hget', hnid'⟩
      have hjk : j < k := Int.ofNat_lt.mp (hik (Int.natCast_nonneg k))
      simpa [hget', hnid', hi] using hbefore j hjk

/-- A certificate with one alternative name and another common name. -/
def plainCert : X509 := ⟨[some [.dNSName (bytes "a.net")]], some [⟨NID_commonName, bytes "b.net"⟩]⟩

theorem hostMatch_iff_plain : hostMatch .plain 2 plainCert (bytes "b.net") = some true ↔
    NameOf plainCert (bytes "b.net") :=
  (hostMatch_iff X509Library.plain_documented (by simp [bytes]) plainCert (by
    rintro entries hentries
    cases hentries
    decide)).2.2.mpr (.inr (.inl ⟨_, rfl⟩))

/-- The same with the extension twice. -/
def twiceCert : X509 where
  altNames := [some [.dNSName (bytes "a.net")], some [.dNSName (bytes "a.net")]]
  subject := some [⟨NID_commonName, bytes "b.net"⟩]

/-- The common name of a certificate is taken, though it has alternative names. -/
theorem hostMatch_twice : ¬ ∀ (L : X509Library), L.Documented → ∀ name : List UInt8, (∀ c ∈ name, c ≠ 0) →
    ∀ (cert : X509) (fuel : ℕ), (∀ entries, cert.subject = some entries → entries.length < fuel) →
      (hostMatch L fuel cert name = some true ↔ NameOf cert name) := by
  intro h
  have hcheck : hostMatch .plain 2 twiceCert (bytes "b.net") = some true := rfl
  have hname := (h .plain X509Library.plain_documented (bytes "b.net") (by simp [bytes]) twiceCert 2
    (by rintro entries hentries; cases hentries; decide)).mp hcheck
  obtain ⟨names, hmem, data, hdata, hmatch⟩ | ⟨hnone, -⟩ := hname
  · have hdata' : data = bytes "a.net" := by
      simp only [twiceCert, List.mem_cons, Option.some.injEq, List.not_mem_nil, or_false, or_self]
        at hmem
      subst hmem
      simpa using hdata
    subst hdata'
    have hfalse : checkName (bytes "b.net") (bytes "a.net") = false := rfl
    rw [(checkName_iff (by simp [bytes]) _).mpr hmatch] at hfalse
    cases hfalse
  · cases hnone

end Netp.Genf
