import Netp.Lib.Words
import Netp.Parse.BodyType

/-! # The signatures of file types

What `machine file_ident` accepts, as languages, and what is left of them in each of its states. The type after
any calls is the one that the bytes so far call for, but a JPG is not known: in the source its bytes stand behind
the end of the doctype, without a bar between.
-/

namespace Netp.Parse
open Netp.Lib
set_option autoImplicit false

/-! ## The languages -/

/-- `[ \t\r\n]` -/
def isSpace (b : UInt8) : Prop := FileIdent.isBlank b ∨ b = 13 ∨ b = 10

/-- A literal. -/
def exactly (t : Text) : List (UInt8 → Prop) := t.map fun c b => b = c

/-- A literal in any case. -/
def word (s : String) : List (UInt8 → Prop) := (bytes s).map fun c b => tolower b = c

def anyByte (_ : UInt8) : Prop := True

/-- `[ \t]*` -/
def blanks (L : Text → Prop) : Text → Prop := Many (fun b => FileIdent.isBlank b) L

/-- `'>'` -/
def close : Text → Prop := Spelled (exactly [62]) (· = [])

/-- `[ \t]* '>'` -/
def tagEnd : Text → Prop := blanks close

/-- What follows `<` in a tag. -/
def afterLt : Text → Prop := blanks (Spelled (word "html") tagEnd)

/-- What follows the `doctype`. -/
def afterDoctype : Text → Prop := blanks (Spelled (word "html") close)

/-- What follows `<!`. -/
def afterBang : Text → Prop :=
  blanks (Spelled (word "doctype") (Spelled [fun b => FileIdent.isBlank b] afterDoctype))

/-- `'PE' 0 0` -/
def peMark : List (UInt8 → Prop) := exactly [80, 69, 0, 0]

/-- What follows `n` bytes behind `MZ`: byte 60 of the file is the offset of the mark. -/
def afterMz (n : ℕ) (t : Text) : Prop := ∃ off, 62 ≤ off ∧ off < 256 ∧
  Spelled (List.replicate (58 - n) anyByte ++ (fun b => b.toNat = off) ::
    (List.replicate (off - 61) anyByte ++ peMark)) (· = []) t

/-- The texts that are the signature of a type. -/
def Signature : FileType → Text → Prop
  | .html => fun t => Many isSpace (Spelled (exactly [60]) afterLt) t ∨
      Many isSpace (Spelled (exactly [60, 33]) afterBang) t
  | .png => (· = [0x89, 0x50, 0x4e, 0x47])
  | .jpg => (· = [0xff, 0xd8, 0xff, 0xe0])
  | .gif => (· = [0x47, 0x49, 0x46, 0x38])
  | .bz => (· = [0x42, 0x5a])
  | .z => (· = [0x1f, 0x9d])
  | .gz => (· = [0x1f, 0x8b])
  | .zip => (· = [0x50, 0x4b, 0x03, 0x04])
  | .pe => Spelled (exactly [77, 90]) (afterMz 0)
  | .working | .unknown => fun _ => False

/-- What a type says of the bytes so far. -/
def FileType.verdict : FileType → Verdict FileType
  | .working => .open
  | .unknown => .none
  | type => .kind type

/-- The type that the bytes so far call for. -/
def FileType.Right (t : Text) (type : FileType) : Prop := type.verdict.Fits Signature t

namespace FileIdent
variable {f : FileIdent} {b : UInt8} {w : Text} {type : FileType}

/-- What the machine still takes in a state, for a type. -/
def Lang (f : FileIdent) (type : FileType) : Text → Prop :=
  match f.cs with
  | .error => fun _ => False
  | .final => fun w => type = f.fileType ∧ w = []
  | .start => fun w => Signature type w ∧ type ≠ .jpg
  | .space => fun w => type = .html ∧ Signature .html w
  | .lt => fun w => type = .html ∧ (afterLt w ∨ Spelled (exactly [33]) afterBang w)
  | .ltSpace => fun w => type = .html ∧ afterLt w
  | .html n => fun w => type = .html ∧ Spelled ((word "html").drop n) tagEnd w
  | .htmlSpace => fun w => type = .html ∧ tagEnd w
  | .bang => fun w => type = .html ∧ afterBang w
  | .doctype n => fun w => type = .html ∧
      Spelled ((word "doctype").drop n) (Spelled [fun b => isBlank b] afterDoctype) w
  | .doctypeSpace => fun w => type = .html ∧ afterDoctype w
  | .doctypeHtml n => fun w => type = .html ∧ Spelled ((word "html").drop n) close w
  | .magic rest magicType => fun w => type = magicType ∧ w = rest
  | .deflate => fun w => type = .z ∧ w = [0x9d] ∨ type = .gz ∧ w = [0x8b]
  | .m => fun w => type = .pe ∧ Spelled (exactly [90]) (afterMz 0) w
  | .mz n => fun w => type = .pe ∧ afterMz n w
  | .skip => fun w => type = .pe ∧
      Spelled (List.replicate (f.nbytes - f.c).toNat anyByte ++ peMark) (· = []) w
  | .peHeader rest => fun w => type = .pe ∧ w = rest

/-- How far the states with a number count, and that a signature is one of a type. -/
def State.Ok : State → Prop
  | .html n | .doctypeHtml n => n ≤ 4
  | .doctype n => n ≤ 7
  | .mz n => n ≤ 58
  | .magic rest type => rest ≠ [] ∧ type.verdict = .kind type
  | .peHeader rest => rest ≠ []
  | _ => True

/-- The states that are reached. -/
structure Counts (f : FileIdent) : Prop where
  ok : f.cs.Ok
  working : f.cs ≠ .final → f.fileType = .working
  found : f.cs = .final → f.fileType.verdict = .kind f.fileType

/-! ## One byte -/

section Letters
variable {L : Text → Prop}

theorem blanks_blank (h : isBlank b = true) (hL : ¬ L (b :: w)) : blanks L (b :: w) ↔ blanks L w := by
  unfold blanks
  rw [many_cons]
  exact ⟨fun hw => (hw.resolve_right hL).2, fun hw => .inl ⟨h, hw⟩⟩

theorem blanks_other (h : ¬ isBlank b = true) : blanks L (b :: w) ↔ L (b :: w) := by
  unfold blanks
  rw [many_cons]
  exact ⟨fun hw => hw.resolve_left fun hb => h hb.1, .inr⟩

theorem spelled_word {s : String} {n : ℕ} (hn : n < (bytes s).length) :
    Spelled ((word s).drop n) L (b :: w) ↔
      (bytes s)[n]? = some (tolower b) ∧ Spelled ((word s).drop (n + 1)) L w := by
  have hlen : n < (word s).length := by simpa [word] using hn
  have hhead : (word s)[n] = fun b => tolower b = (bytes s)[n] := by simp [word]
  rw [List.drop_eq_getElem_cons hlen, spelled_cons_cons, hhead, List.getElem?_eq_getElem hn,
    Option.some.injEq, eq_comm]

theorem word_drop_all (s : String) : (word s).drop (bytes s).length = [] := by
  simp [word]

end Letters

theorem blank_iff : isBlank b = true ↔ b = 32 ∨ b = 9 := by simp [isBlank]

theorem close_cons : close (b :: w) ↔ b = 62 ∧ w = [] := by simp [close, exactly]

theorem tagEnd_cons : tagEnd (b :: w) ↔ if isBlank b = true then tagEnd w else b = 62 ∧ w = [] := by
  split
  · next hblank =>
    refine blanks_blank hblank ?_
    rw [close_cons]
    rcases blank_iff.1 hblank with rfl | rfl <;> simp
  · next hblank => rw [tagEnd, blanks_other hblank, close_cons]

theorem blanks_word {s : String} {c : UInt8} {L : Text → Prop} (hc : (bytes s)[0]? = some c)
    (hplain : ∀ b, isBlank b = true → tolower b ≠ c) :
    blanks (Spelled (word s) L) (b :: w) ↔ if isBlank b = true then blanks (Spelled (word s) L) w
      else tolower b = c ∧ Spelled ((word s).drop 1) L w := by
  have hlen : 0 < (bytes s).length := (List.getElem?_eq_some_iff.1 hc).1
  have hword := spelled_word (L := L) (b := b) (w := w) hlen
  rw [List.drop_zero, hc, Option.some.injEq, eq_comm (a := c)] at hword
  split
  · next hblank =>
    refine blanks_blank hblank ?_
    rw [hword]
    exact fun h => hplain b hblank h.1
  · next hblank => rw [blanks_other hblank, hword]

theorem blank_ne {c : UInt8} (hc : 65 ≤ c) (b : UInt8) (hb : isBlank b = true) : tolower b ≠ c := by
  rintro rfl
  rcases blank_iff.1 hb with rfl | rfl <;> exact absurd hc (by decide)

theorem afterLt_cons : afterLt (b :: w) ↔
    if isBlank b = true then afterLt w else tolower b = 104 ∧ Spelled ((word "html").drop 1) tagEnd w :=
  blanks_word rfl (blank_ne (by decide))

theorem afterDoctype_cons : afterDoctype (b :: w) ↔
    if isBlank b = true then afterDoctype w else tolower b = 104 ∧ Spelled ((word "html").drop 1) close w :=
  blanks_word rfl (blank_ne (by decide))

theorem afterBang_cons : afterBang (b :: w) ↔ if isBlank b = true then afterBang w
    else tolower b = 100 ∧ Spelled ((word "doctype").drop 1) (Spelled [fun b => isBlank b] afterDoctype) w :=
  blanks_word rfl (blank_ne (by decide))

theorem html_cons (n : ℕ) (hn : n ≤ 4) {L : Text → Prop} : Spelled ((word "html").drop n) L (b :: w) ↔
    if n = 4 then L (b :: w) else (bytes "html")[n]? = some (tolower b) ∧ Spelled ((word "html").drop (n + 1)) L w := by
  have hlen : (bytes "html").length = 4 := by decide
  split
  · next h =>
    subst h
    have hend : (word "html").drop 4 = [] := word_drop_all "html"
    rw [hend, spelled_nil]
  · exact spelled_word (by omega)

theorem doctype_cons (n : ℕ) (hn : n ≤ 7) {L : Text → Prop} : Spelled ((word "doctype").drop n) L (b :: w) ↔
    if n = 7 then L (b :: w)
    else (bytes "doctype")[n]? = some (tolower b) ∧ Spelled ((word "doctype").drop (n + 1)) L w := by
  have hlen : (bytes "doctype").length = 7 := by decide
  split
  · next h =>
    subst h
    have hend : (word "doctype").drop 7 = [] := word_drop_all "doctype"
    rw [hend, spelled_nil]
  · exact spelled_word (by omega)

theorem html_signature_cons : Signature .html (b :: w) ↔ isSpace b ∧ Signature .html w ∨
    b = 60 ∧ (afterLt w ∨ Spelled (exactly [33]) afterBang w) := by
  simp only [Signature, many_cons, exactly, List.map_cons, List.map_nil, spelled_cons_cons, spelled_nil]
  tauto

theorem lang_bang_cons : (afterLt (b :: w) ∨ Spelled (exactly [33]) afterBang (b :: w)) ↔
    if isBlank b = true then afterLt w
    else if tolower b = 104 then Spelled ((word "html").drop 1) tagEnd w
    else b = 33 ∧ afterBang w := by
  have hbang : Spelled (exactly [33]) afterBang (b :: w) ↔ b = 33 ∧ afterBang w := by simp [exactly]
  have hblank : isBlank 33 = false := by decide
  have hh : tolower 33 ≠ 104 := by decide
  rw [afterLt_cons, hbang]
  by_cases hb : b = 33
  · subst hb
    simp [hblank, hh]
  · split_ifs <;> simp_all

theorem lang_tag (hf : f.Counts) (hstate : f.cs = .lt ∨ f.cs = .ltSpace ∨ (∃ n, f.cs = .html n) ∨
    f.cs = .htmlSpace ∨ f.cs = .bang ∨ (∃ n, f.cs = .doctype n) ∨ f.cs = .doctypeSpace ∨
    ∃ n, f.cs = .doctypeHtml n) : f.Lang type (b :: w) ↔ (f.step b).Lang type w := by
  have hok := hf.ok
  rcases hstate with hcs | hcs | ⟨n, hcs⟩ | hcs | hcs | ⟨n, hcs⟩ | hcs | ⟨n, hcs⟩ <;> rw [hcs] at hok
  · simp only [Lang, step, hcs, lang_bang_cons]
    split_ifs <;> simp_all [goto]
  · simp only [Lang, step, hcs, afterLt_cons]
    split_ifs <;> simp_all [goto]
  · simp only [Lang, step, hcs, html_cons n (hok), tagEnd_cons]
    split_ifs <;> simp_all [goto, found]
  · simp only [Lang, step, hcs, tagEnd_cons]
    split_ifs <;> simp_all [goto, found]
  · simp only [Lang, step, hcs, afterBang_cons]
    split_ifs <;> simp_all [goto]
  · simp only [Lang, step, hcs, doctype_cons n (hok), spelled_cons_cons, spelled_nil]
    split_ifs <;> simp_all [goto]
  · simp only [Lang, step, hcs, afterDoctype_cons]
    split_ifs <;> simp_all [goto]
  · simp only [Lang, step, hcs, html_cons n (hok), close_cons]
    split_ifs <;> simp_all [goto, found]

theorem lang_signature : (f.signature b).Lang type w ↔ type ≠ .html ∧ type ≠ .jpg ∧ Signature type (b :: w) := by
  unfold signature
  split_ifs
  · cases type <;> simp_all [Lang, goto, Signature, exactly]
  · cases type <;> simp_all [Lang, goto, Signature, exactly]
  · cases type <;> simp_all [Lang, goto, Signature, exactly]
  · cases type <;> simp_all [Lang, goto, Signature, exactly]
  · cases type <;> simp_all [Lang, goto, Signature, exactly]
  · cases type <;> simp_all [Lang, goto, Signature, exactly]
  · cases type <;> simp_all [Lang, goto, Signature, exactly]

theorem signature_first (h : Signature type (b :: w)) (hhtml : type ≠ .html) : ¬ isSpace b ∧ b ≠ 60 := by
  cases type with
  | html => exact absurd rfl hhtml
  | working => exact h.elim
  | unknown => exact h.elim
  | pe =>
    obtain ⟨rfl, -⟩ := spelled_cons_cons.1 h
    simp [isSpace, isBlank]
  | _ =>
    obtain ⟨rfl, -⟩ := List.cons.inj h
    simp [isSpace, isBlank]

theorem lang_start (hcs : f.cs = .start) : f.Lang type (b :: w) ↔ (f.step b).Lang type w := by
  have hspace : isSpace b ↔ isBlank b = true ∨ b = 13 ∨ b = 10 := Iff.rfl
  have hlang : f.Lang type (b :: w) ↔ Signature type (b :: w) ∧ type ≠ .jpg := by simp only [Lang, hcs]
  have hstep : f.step b = if isBlank b = true ∨ b = 13 ∨ b = 10 then f.goto .space
      else if b = 60 then f.goto .lt else f.signature b := by simp only [step, hcs]
  rw [hlang, hstep]
  by_cases hhtml : type = .html
  · subst hhtml
    rw [html_signature_cons, hspace]
    split_ifs with hb h60
    · have h60 : b ≠ 60 := by
        rintro rfl
        exact absurd hb (by decide)
      simp [hb, h60, Lang, goto]
    · subst h60
      simp [isBlank, Lang, goto]
    · simp [hb, h60, lang_signature]
  · split_ifs with hb h60
    · simp only [Lang, goto, hhtml, false_and, iff_false]
      exact fun h => (signature_first h.1 hhtml).1 hb
    · simp only [Lang, goto, hhtml, false_and, iff_false]
      exact fun h => (signature_first h.1 hhtml).2 h60
    · rw [lang_signature]
      exact ⟨fun h => ⟨hhtml, h.2, h.1⟩, fun h => ⟨h.2.2, h.2.1⟩⟩

theorem lang_space (hcs : f.cs = .space) : f.Lang type (b :: w) ↔ (f.step b).Lang type w := by
  have hspace : isSpace b ↔ isBlank b = true ∨ b = 13 ∨ b = 10 := Iff.rfl
  simp only [Lang, hcs, step, html_signature_cons, hspace]
  split_ifs with hb h60
  · have h60 : b ≠ 60 := by
      rintro rfl
      exact absurd hb (by decide)
    simp [hb, h60, goto]
  · subst h60
    simp [isBlank, goto]
  · simp [hb, h60, goto]

theorem lang_magic {rest : Text} {magicType : FileType} (hcs : f.cs = .magic rest magicType) :
    f.Lang type (b :: w) ↔ (f.step b).Lang type w := by
  simp only [Lang, hcs]
  match rest with
  | [] => simp [step, hcs, goto]
  | [c] =>
    simp only [step, hcs]
    split_ifs with hb
    · simp [hb, found]
    · simp [hb, goto]
  | c :: d :: rest =>
    simp only [step, hcs]
    split_ifs with hb
    · simp [hb, goto]
    · simp [hb, goto]

theorem lang_peHeader {rest : Text} (hcs : f.cs = .peHeader rest) :
    f.Lang type (b :: w) ↔ (f.step b).Lang type w := by
  simp only [Lang, hcs]
  match rest with
  | [] => simp [step, hcs, goto]
  | [c] =>
    simp only [step, hcs]
    split_ifs with hb
    · simp [hb, found]
    · simp [hb, goto]
  | c :: d :: rest =>
    simp only [step, hcs]
    split_ifs with hb
    · simp [hb, goto]
    · simp [hb, goto]

theorem lang_deflate (hcs : f.cs = .deflate) : f.Lang type (b :: w) ↔ (f.step b).Lang type w := by
  simp only [Lang, hcs, step]
  split_ifs with hz hgz
  · subst hz
    simp [found]
  · subst hgz
    simp [found]
  · simp [hz, hgz, goto]

theorem lang_m (hcs : f.cs = .m) : f.Lang type (b :: w) ↔ (f.step b).Lang type w := by
  have hm : Spelled (exactly [90]) (afterMz 0) (b :: w) ↔ b = 90 ∧ afterMz 0 w := by simp [exactly]
  simp only [Lang, hcs, step, hm]
  split_ifs with hb
  · simp [hb, goto]
  · simp [hb, goto]

theorem replicate_any_cons {n : ℕ} {ps : List (UInt8 → Prop)} {L : Text → Prop} :
    Spelled (List.replicate n anyByte ++ ps) L (b :: w) ↔
      if 0 < n then Spelled (List.replicate (n - 1) anyByte ++ ps) L w else Spelled ps L (b :: w) := by
  cases n with
  | zero => simp
  | succ n => simp [List.replicate_succ, anyByte]

theorem lang_mz {n : ℕ} (hf : f.Counts) (hcs : f.cs = .mz n) : f.Lang type (b :: w) ↔ (f.step b).Lang type w := by
  have hn : n ≤ 58 := by
    have hok := hf.ok
    rwa [hcs] at hok
  simp only [Lang, hcs, step]
  split_ifs with hlt hbad
  · have hsub : 58 - (n + 1) = 58 - n - 1 := by omega
    have hpos : 0 < 58 - n := by omega
    simp only [goto, afterMz, replicate_any_cons, if_pos hpos, hsub]
  · have hnot : ¬ afterMz n (b :: w) := by
      rintro ⟨off, h1, h2, h⟩
      have h0 : ¬ 0 < 58 - n := by omega
      rw [replicate_any_cons, if_neg h0, spelled_cons_cons] at h
      have := b.toNat_lt
      have := h.1
      omega
    simp [hnot]
  · have h0 : ¬ 0 < 58 - n := by omega
    have hoff : ((b.toNat : ℤ) - 61 - 0).toNat = b.toNat - 61 := by omega
    have := b.toNat_lt
    simp only [afterMz, replicate_any_cons, if_neg h0, spelled_cons_cons, hoff]
    refine and_congr_right fun _ => ?_
    constructor
    · rintro ⟨off, h1, h2, rfl, h⟩
      exact h
    · exact fun h => ⟨b.toNat, by omega, by omega, rfl, h⟩

theorem peMark_cons : Spelled peMark (· = []) (b :: w) ↔ b = 80 ∧ w = [69, 0, 0] := by
  simp only [peMark, exactly, List.map_cons, spelled_cons_cons]
  refine and_congr_right fun _ => ?_
  constructor
  · rintro ⟨x, r, hx, rfl, rfl⟩
    simp only [List.map_nil, List.forall₂_cons_left_iff, List.forall₂_nil_left_iff] at hx
    obtain ⟨_, _, rfl, ⟨_, _, rfl, ⟨_, _, rfl, rfl, rfl⟩, rfl⟩, rfl⟩ := hx
    rfl
  · rintro rfl
    simp

theorem lang_skip (hcs : f.cs = .skip) : f.Lang type (b :: w) ↔ (f.step b).Lang type w := by
  simp only [Lang, hcs, step, replicate_any_cons]
  by_cases hlt : f.c < f.nbytes
  · have hsub : (f.nbytes - (f.c + 1)).toNat = (f.nbytes - f.c).toNat - 1 := by omega
    have hpos : 0 < (f.nbytes - f.c).toNat := by omega
    simp only [if_pos hlt, if_pos hpos, hsub]
  · have h0 : ¬ 0 < (f.nbytes - f.c).toNat := by omega
    simp only [if_neg hlt, if_neg h0, peMark_cons]
    split_ifs with hb
    · simp [hb, goto]
    · simp [hb, goto]

/-- The step lemma: a byte leaves of every signature what is behind it. -/
theorem lang_step (hf : f.Counts) (hfinal : f.cs ≠ .final) :
    f.Lang type (b :: w) ↔ (f.step b).Lang type w := by
  cases hcs : f.cs with
  | error => simp only [Lang, hcs, step]
  | final => exact absurd hcs hfinal
  | start => exact lang_start hcs
  | space => exact lang_space hcs
  | magic rest magicType => exact lang_magic hcs
  | deflate => exact lang_deflate hcs
  | m => exact lang_m hcs
  | mz n => exact lang_mz hf hcs
  | skip => exact lang_skip hcs
  | peHeader rest => exact lang_peHeader hcs
  | _ => exact lang_tag hf (by simp [hcs])

/-! ## Reached states -/

theorem Counts.step (hf : f.Counts) (hfinal : f.cs ≠ .final) : (f.step b).Counts := by
  have hwork := hf.working hfinal
  have hok := hf.ok
  have hgoto : ∀ cs : State, cs.Ok → cs ≠ .final → (f.goto cs).Counts :=
    fun cs h hcs => ⟨h, fun _ => hwork, fun h => absurd h hcs⟩
  have hfound : ∀ type : FileType, type.verdict = .kind type → (f.found type).Counts :=
    fun type h => ⟨trivial, fun h => absurd rfl h, fun _ => h⟩
  cases hcs : f.cs with
  | final => exact absurd hcs hfinal
  | error => simpa only [FileIdent.step, hcs] using hf
  | magic rest type =>
    rw [hcs] at hok
    match rest with
    | [] => exact absurd rfl hok.1
    | [c] =>
      simp only [FileIdent.step, hcs]
      split_ifs
      · exact hfound _ hok.2
      · exact hgoto _ trivial State.noConfusion
    | c :: d :: rest =>
      simp only [FileIdent.step, hcs]
      split_ifs
      · exact hgoto _ ⟨List.cons_ne_nil d rest, hok.2⟩ State.noConfusion
      · exact hgoto _ trivial State.noConfusion
  | peHeader rest =>
    rw [hcs] at hok
    match rest with
    | [] => exact absurd rfl hok
    | [c] =>
      simp only [FileIdent.step, hcs]
      split_ifs
      · exact hfound _ rfl
      · exact hgoto _ trivial State.noConfusion
    | c :: d :: rest =>
      simp only [FileIdent.step, hcs]
      split_ifs
      · exact hgoto _ (List.cons_ne_nil d rest) State.noConfusion
      · exact hgoto _ trivial State.noConfusion
  | skip =>
    simp only [FileIdent.step, hcs]
    split_ifs
    · exact ⟨trivial, fun _ => hwork, State.noConfusion⟩
    · exact hgoto _ (by simp [State.Ok]) State.noConfusion
    · exact hgoto _ trivial State.noConfusion
  | mz n =>
    simp only [FileIdent.step, hcs]
    split_ifs with hn
    · exact hgoto _ (show n + 1 ≤ 58 from hn) State.noConfusion
    · exact ⟨trivial, fun _ => hwork, State.noConfusion⟩
    · exact ⟨trivial, fun _ => hwork, State.noConfusion⟩
  | start =>
    simp only [FileIdent.step, hcs, signature]
    split_ifs <;> exact hgoto _ (by simp [State.Ok, FileType.verdict]) State.noConfusion
  | _ =>
    rw [hcs] at hok
    simp only [FileIdent.step, hcs]
    split_ifs <;>
      first | exact hfound _ rfl | exact hgoto _ (by simp [State.Ok] at hok ⊢; try omega) State.noConfusion

theorem signature_nil (type : FileType) : ¬ Signature type [] := by
  cases type with
  | html =>
    rintro (h | h)
    · exact spelled_cons_nil (many_nil.1 h)
    · exact spelled_cons_nil (many_nil.1 h)
  | pe => exact spelled_cons_nil
  | working => exact not_false
  | unknown => exact not_false
  | _ => exact fun h => by cases h

theorem close_nil : ¬ close [] := spelled_cons_nil

theorem blanks_word_nil {s : String} {L : Text → Prop} (hs : bytes s ≠ []) :
    ¬ blanks (Spelled (word s) L) [] :=
  fun h => hs (List.map_eq_nil_iff.1 (spelled_of_nil (many_nil.1 h)).1)

theorem afterMz_nil (n : ℕ) : ¬ afterMz n [] := by
  rintro ⟨off, -, -, h⟩
  have hnil := (spelled_of_nil h).1
  simp at hnil

theorem lang_nil (hf : f.Counts) (hfinal : f.cs ≠ .final) : ¬ f.Lang type [] := by
  have hok := hf.ok
  have htag : ¬ tagEnd [] := fun h => close_nil (many_nil.1 h)
  cases hcs : f.cs with
  | final => exact absurd hcs hfinal
  | error => simp only [Lang, hcs, not_false_eq_true]
  | start =>
    simp only [Lang, hcs]
    exact fun h => signature_nil type h.1
  | space =>
    simp only [Lang, hcs]
    exact fun h => signature_nil .html h.2
  | lt =>
    simp only [Lang, hcs]
    exact fun h => h.2.elim (blanks_word_nil (by decide)) spelled_cons_nil
  | ltSpace =>
    simp only [Lang, hcs]
    exact fun h => blanks_word_nil (by decide) h.2
  | html n =>
    simp only [Lang, hcs]
    exact fun h => htag (spelled_of_nil h.2).2
  | htmlSpace =>
    simp only [Lang, hcs]
    exact fun h => htag h.2
  | bang =>
    simp only [Lang, hcs]
    exact fun h => blanks_word_nil (by decide) h.2
  | doctype n =>
    simp only [Lang, hcs]
    exact fun h => spelled_cons_nil (spelled_of_nil h.2).2
  | doctypeSpace =>
    simp only [Lang, hcs]
    exact fun h => blanks_word_nil (by decide) h.2
  | doctypeHtml n =>
    simp only [Lang, hcs]
    exact fun h => close_nil (spelled_of_nil h.2).2
  | magic rest magicType =>
    rw [hcs] at hok
    simp only [Lang, hcs]
    exact fun h => hok.1 h.2.symm
  | deflate => simp [Lang, hcs]
  | m =>
    simp only [Lang, hcs]
    exact fun h => spelled_cons_nil h.2
  | mz n =>
    simp only [Lang, hcs]
    exact fun h => afterMz_nil n h.2
  | skip =>
    simp only [Lang, hcs]
    intro h
    have hnil := (spelled_of_nil h.2).1
    simp [peMark, exactly] at hnil
  | peHeader rest =>
    rw [hcs] at hok
    simp only [Lang, hcs]
    exact fun h => hok h.2.symm

/-! ### Every state but the error leads to a signature -/

theorem exists_exactly (t : Text) : ∀ p ∈ exactly t, ∃ b, p b := by
  intro p hp
  obtain ⟨c, -, rfl⟩ := List.mem_map.1 hp
  exact ⟨c, rfl⟩

theorem exists_word {s : String} (hs : (bytes s).map tolower = bytes s) (n : ℕ) :
    ∀ p ∈ (word s).drop n, ∃ b, p b := by
  intro p hp
  obtain ⟨c, hc, rfl⟩ := List.mem_map.1 (List.mem_of_mem_drop hp)
  exact ⟨c, List.map_inj_left.1 (hs.trans (List.map_id _).symm) c hc⟩

theorem exists_close : ∃ w, close w := exists_spelled (exists_exactly _) ⟨[], rfl⟩

theorem exists_html (n : ℕ) {L : Text → Prop} (hL : ∃ w, L w) : ∃ w, Spelled ((word "html").drop n) L w :=
  exists_spelled (exists_word (by decide) n) hL

theorem exists_afterDoctype : ∃ w, afterDoctype w := exists_many (exists_html 0 exists_close)

theorem exists_doctype (n : ℕ) :
    ∃ w, Spelled ((word "doctype").drop n) (Spelled [fun b => isBlank b = true] afterDoctype) w := by
  refine exists_spelled (exists_word (by decide) n)
    (exists_spelled ?_ exists_afterDoctype)
  intro p hp
  rw [List.mem_singleton.1 hp]
  exact ⟨32, by decide⟩

theorem exists_skip (n : ℕ) : ∃ w, Spelled (List.replicate n anyByte ++ peMark) (· = []) w := by
  refine exists_spelled (fun p hp => ?_) ⟨[], rfl⟩
  rcases List.mem_append.1 hp with hp | hp
  · rw [(List.mem_replicate.1 hp).2]
    exact ⟨0, trivial⟩
  · exact exists_exactly _ p hp

theorem exists_afterMz (n : ℕ) : ∃ w, afterMz n w := by
  obtain ⟨w, hw⟩ := exists_skip (62 - 61)
  have hoff : ∃ w, Spelled (List.replicate (58 - n) anyByte)
      (Spelled [fun b : UInt8 => b.toNat = 62] (Spelled (List.replicate (62 - 61) anyByte ++ peMark) (· = []))) w := by
    refine exists_spelled (fun p hp => ?_) (exists_spelled (fun p hp => ?_) ⟨w, hw⟩)
    · rw [(List.mem_replicate.1 hp).2]
      exact ⟨0, trivial⟩
    · rw [List.mem_singleton.1 hp]
      exact ⟨62, rfl⟩
  obtain ⟨w, hw⟩ := hoff
  refine ⟨w, 62, by omega, by omega, ?_⟩
  rwa [← spelled_append, ← spelled_append, List.append_assoc] at hw

theorem exists_tagEnd : ∃ w, tagEnd w := exists_many exists_close

theorem exists_afterLt : ∃ w, afterLt w := exists_many (exists_html 0 exists_tagEnd)

theorem exists_afterBang : ∃ w, afterBang w := exists_many (exists_doctype 0)

theorem lang_live (herr : f.cs ≠ .error) : ∃ type w, f.Lang type w := by
  have hlive : ∀ (type : FileType) (L : Text → Prop), (∃ w, L w) → (∀ w, L w → f.Lang type w) →
      ∃ type w, f.Lang type w := fun type _ ⟨w, hw⟩ h => ⟨type, w, h w hw⟩
  cases hcs : f.cs with
  | error => exact absurd hcs herr
  | final => exact hlive f.fileType (· = []) ⟨[], rfl⟩ fun w hw => by simp [Lang, hcs, hw]
  | start => exact hlive .bz (· = [0x42, 0x5a]) ⟨_, rfl⟩ fun w hw => by simp [Lang, hcs, Signature, hw]
  | space =>
    exact hlive .html (Many isSpace (Spelled (exactly [60]) afterLt))
      (exists_many (exists_spelled (exists_exactly _) exists_afterLt)) fun w hw => by simp [Lang, hcs, Signature, hw]
  | lt => exact hlive .html afterLt exists_afterLt fun w hw => by simp [Lang, hcs, hw]
  | ltSpace => exact hlive .html afterLt exists_afterLt fun w hw => by simp [Lang, hcs, hw]
  | html n => exact hlive .html _ (exists_html n exists_tagEnd) fun w hw => by simp [Lang, hcs, hw]
  | htmlSpace => exact hlive .html _ exists_tagEnd fun w hw => by simp [Lang, hcs, hw]
  | bang => exact hlive .html _ exists_afterBang fun w hw => by simp [Lang, hcs, hw]
  | doctype n => exact hlive .html _ (exists_doctype n) fun w hw => by simp [Lang, hcs, hw]
  | doctypeSpace => exact hlive .html _ exists_afterDoctype fun w hw => by simp [Lang, hcs, hw]
  | doctypeHtml n => exact hlive .html _ (exists_html n exists_close) fun w hw => by simp [Lang, hcs, hw]
  | magic rest magicType => exact hlive magicType (· = rest) ⟨_, rfl⟩ fun w hw => by simp [Lang, hcs, hw]
  | deflate => exact hlive .z (· = [0x9d]) ⟨_, rfl⟩ fun w hw => by simp [Lang, hcs, hw]
  | m =>
    exact hlive .pe _ (exists_spelled (exists_exactly [90]) (exists_afterMz 0)) fun w hw => by simp [Lang, hcs, hw]
  | mz n => exact hlive .pe _ (exists_afterMz n) fun w hw => by simp [Lang, hcs, hw]
  | skip => exact hlive .pe _ (exists_skip (f.nbytes - f.c).toNat) fun w hw => by simp [Lang, hcs, hw]
  | peHeader rest => exact hlive .pe (· = rest) ⟨_, rfl⟩ fun w hw => by simp [Lang, hcs, hw]

/-! ## The bytes so far -/

theorem verdict_injective : Function.Injective FileType.verdict := by
  intro t t' h
  cases t <;> cases t' <;> simp_all [FileType.verdict]

theorem receive_singleton (hdone : ¬ f.Done) : f.receive [b] =
    if (f.step b).cs = .error then { f.step b with fileType := .unknown } else f.step b := by
  have hexec : f.exec [b] = f.step b := by
    simp only [exec]
    split <;> rfl
  rw [receive, if_neg hdone, hexec]

/-- The run lemma: what `receive` makes of the bytes is what the languages of the state say of them. -/
theorem receive_fits {t : Text} (hf : f.Counts) (hdone : ¬ f.Done) :
    type.verdict.Fits f.Lang t ↔ (f.receive t).fileType = type := by
  have herr : f.cs ≠ .error := fun h => hdone (.inl h)
  have hwork : f.fileType = .working := not_not.1 fun h => hdone (.inr h)
  have hfinal : f.cs ≠ .final := by
    intro h
    have hkind := hf.found h
    rw [hwork] at hkind
    cases hkind
  induction t generalizing f with
  | nil =>
    rw [receive_nil, Verdict.fits_nil (fun k => lang_nil hf hfinal) (lang_live herr), hwork, eq_comm (a := FileType.working)]
    exact verdict_injective.eq_iff (b := .working)
  | cons b t ih =>
    have hf' := hf.step (b := b) hfinal
    rw [Verdict.fits_cons (fun k => lang_nil hf hfinal) (fun k w => lang_step hf hfinal), ← List.singleton_append,
      receive_append, receive_singleton hdone]
    by_cases herr' : (f.step b).cs = .error
    · have hdead : ∀ k w, ¬ (f.step b).Lang k w := fun k w => by simp [Lang, herr']
      have hunknown : ({ f.step b with fileType := .unknown } : FileIdent).Done := .inl herr'
      rw [if_pos herr', receive_done hunknown, Verdict.fits_dead hdead, eq_comm (a := FileType.unknown)]
      exact verdict_injective.eq_iff (b := .unknown)
    · rw [if_neg herr']
      by_cases hwork' : (f.step b).fileType = .working
      · have hdone' : ¬ (f.step b).Done := fun h => h.elim herr' fun h => h hwork'
        refine ih hf' hdone' herr' hwork' ?_
        intro h
        have hkind := hf'.found h
        rw [hwork'] at hkind
        cases hkind
      · have hfinal' : (f.step b).cs = .final := not_not.1 fun h => hwork' (hf'.working h)
        rw [receive_done (.inr hwork'), Verdict.fits_done (k := (f.step b).fileType) (fun k w => by simp [Lang, hfinal']),
          ← hf'.found hfinal', eq_comm (a := (f.step b).fileType)]
        exact verdict_injective.eq_iff

/-! ## Every call -/

/-- The signature that the machine has not. -/
def jpgSignature : Text := [0xff, 0xd8, 0xff, 0xe0]

theorem counts_init : FileIdent.init.Counts := ⟨trivial, fun _ => rfl, State.noConfusion⟩

/-- The bytes so far, of which there are some, agree with the signature of a JPG. -/
def LikeJpg (t : Text) : Prop := t ≠ [] ∧ (t <+: jpgSignature ∨ jpgSignature <+: t)

theorem lang_init (w : Text) : init.Lang type w ↔ Signature type w ∧ type ≠ .jpg := Iff.rfl

theorem fits_init {t : Text} (h : ¬ LikeJpg t) (v : Verdict FileType) :
    v.Fits init.Lang t ↔ v.Fits Signature t := by
  have hjpg : ∀ w, Signature .jpg w → w = jpgSignature := fun w hw => hw
  have hempty : t <+: jpgSignature → t = [] := fun hpre => not_not.1 fun hne => h ⟨hne, .inl hpre⟩
  have hlong : ¬ jpgSignature <+: t := by
    intro hpre
    refine h ⟨?_, .inr hpre⟩
    rintro rfl
    cases List.prefix_nil.1 hpre
  have hbz : Signature .bz [0x42, 0x5a] := rfl
  cases v with
  | kind k =>
    refine exists_congr fun w => and_congr_right fun hpre => (lang_init w).trans (and_iff_left_of_imp fun hw => ?_)
    rintro rfl
    exact hlong (hjpg w hw ▸ hpre)
  | «open» =>
    constructor
    · rintro ⟨k, w, hne, hw⟩
      exact ⟨k, w, hne, ((lang_init _).1 hw).1⟩
    · rintro ⟨k, w, hne, hw⟩
      by_cases hk : k = .jpg
      · subst hk
        have hnil : t = [] := hempty ⟨w, hjpg _ hw⟩
        subst hnil
        exact ⟨.bz, [0x42, 0x5a], by simp, (lang_init _).2 ⟨hbz, by simp⟩⟩
      · exact ⟨k, w, hne, (lang_init _).2 ⟨hw, hk⟩⟩
  | none =>
    constructor
    · intro hnone k w hw
      by_cases hk : k = .jpg
      · subst hk
        obtain rfl := hjpg w hw
        refine ⟨hlong, fun hpre => ?_⟩
        have hother := (hnone .bz _ ((lang_init _).2 ⟨hbz, by simp⟩)).2
        rw [hempty hpre] at hother
        exact hother List.nil_prefix
      · exact hnone k w ((lang_init _).2 ⟨hw, hk⟩)
    · exact fun hnone k w hw => hnone k w ((lang_init _).1 hw).1

/-- After every call the type is the one that the bytes so far call for. -/
def Detects (pieces : List Text) : Prop :=
  ∀ calls, calls <+: pieces → ∀ type : FileType,
    (calls.foldl receive init).fileType = type ↔ type.Right calls.flatten

theorem foldl_receive (pieces : List Text) : pieces.foldl receive init = init.receive pieces.flatten := by
  induction pieces using List.reverseRecOn with
  | nil => rfl
  | append_singleton pieces data ih =>
    rw [List.foldl_append, List.foldl_cons, List.foldl_nil, ih, ← receive_append, List.flatten_append,
      List.flatten_singleton]

/-- The type is right after every call exactly if the bytes so far are never those of a JPG. -/
theorem detects_iff (pieces : List Text) : Detects pieces ↔ ∀ calls, calls <+: pieces → ¬ LikeJpg calls.flatten := by
  refine forall₂_congr fun calls _ => ?_
  rw [foldl_receive]
  constructor
  · rintro hright ⟨hne, hlike⟩
    obtain ⟨b, t, ht⟩ := List.exists_cons_of_ne_nil hne
    rw [ht] at hright hlike
    have hb : b = 0xff := by
      rcases hlike with hpre | hpre
      · exact (List.cons_prefix_cons.1 hpre).1
      · exact (List.cons_prefix_cons.1 hpre).1.symm
    have hunknown : (init.receive (b :: t)).fileType = .unknown := by
      rw [hb, ← List.singleton_append, receive_append]
      rfl
    have hnone := (hright .unknown).1 hunknown .jpg jpgSignature rfl
    exact hlike.elim hnone.2 hnone.1
  · intro hlike type
    rw [← receive_fits counts_init (by decide), fits_init hlike]
    rfl

/-- A JPG in one piece. -/
theorem jpg_unknown : ¬ ∀ pieces, Detects pieces := by
  intro h
  have hjpg : FileType.jpg.Right jpgSignature := ⟨jpgSignature, List.prefix_refl _, rfl⟩
  have htype : ([jpgSignature].foldl receive init).fileType = .jpg :=
    (h [jpgSignature] [jpgSignature] (List.prefix_refl _) .jpg).2 hjpg
  exact absurd htype (by decide)

end FileIdent
end Netp.Parse
