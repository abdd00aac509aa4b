import Netp.Parse.DnsMessage
import Netp.Parse.Match

/-! # Decoding a message

`decode_wellFormed` is about the parser on the bytes of a well-formed message: it takes them item by
item to the end, its calls on the tree are those of the records, and it leaves any tree as deep as it
was. The names go through C strings, so the tree has their text up to the first zero byte.
-/

namespace Netp.Parse.Dns.Wire
open Netp.Lib
set_option autoImplicit false
variable {pkt : Packet} {p q : ℕ} {bs xs ys : List UInt8} {known known' : Table}

/-! ## Bytes in the packet -/

/-- The bytes stand at `p`. -/
def Holds (pkt : Packet) (p : ℕ) (bs : List UInt8) : Prop := ∃ rest, pkt.drop p = bs ++ rest

theorem Holds.left (h : Holds pkt p (xs ++ ys)) : Holds pkt p xs := by
  obtain ⟨rest, h⟩ := h
  exact ⟨ys ++ rest, by rw [h, List.append_assoc]⟩

theorem Holds.right (h : Holds pkt p (xs ++ ys)) : Holds pkt (p + xs.length) ys := by
  obtain ⟨rest, h⟩ := h
  refine ⟨rest, ?_⟩
  rw [← List.drop_drop, h, List.append_assoc, List.drop_left]

theorem Holds.get {b : UInt8} (h : Holds pkt p (b :: bs)) : pkt[p]? = some b := by
  obtain ⟨rest, h⟩ := h
  have := congrArg (·[0]?) h
  simpa [List.getElem?_drop] using this

theorem Holds.tail {b : UInt8} (h : Holds pkt p (b :: bs)) : Holds pkt (p + 1) bs := by
  rw [← List.singleton_append] at h
  exact h.right

theorem Holds.take (h : Holds pkt p bs) : (pkt.drop p).take bs.length = bs := by
  obtain ⟨rest, h⟩ := h
  rw [h, List.take_left]

theorem Holds.le (h : Holds pkt p bs) (hp : p ≤ pkt.length) : p + bs.length ≤ pkt.length := by
  obtain ⟨rest, h⟩ := h
  have := congrArg List.length h
  rw [List.length_drop, List.length_append] at this
  omega

theorem Holds.word {n : ℕ} (h : Holds pkt p (word n)) (hn : n < 65536) : Dns.word pkt p = n := by
  have hlow : Holds pkt (p + 1) [UInt8.ofNat n] := h.tail
  unfold Dns.word
  rw [List.getD_eq_getElem?_getD, List.getD_eq_getElem?_getD, h.get, hlow.get]
  simp only [Option.getD_some, UInt8.toNat_ofNat']
  omega

@[simp] theorem word_length (n : ℕ) : (word n).length = 2 := rfl

theorem fixed_length (r : ResourceRecord) : r.fixed.length = 10 := rfl

/-! ## Names -/

theorem Label.byte_toNat (l : Label) : (UInt8.ofNat l.octets.length).toNat = l.octets.length := by
  have := l.le
  rw [UInt8.toNat_ofNat']
  omega

theorem Label.byte_ne_zero (l : Label) : UInt8.ofNat l.octets.length ≠ 0 := by
  intro h
  have hlen := l.byte_toNat
  rw [h] at hlen
  exact absurd l.pos (by rw [← hlen]; decide)

theorem Label.byte_le (l : Label) : UInt8.ofNat l.octets.length ≤ 63 := by
  rw [UInt8.le_iff_toNat_le, l.byte_toNat]
  exact l.le

theorem high_ge (off : Fin 16384) : 192 ≤ high off := by
  have := off.isLt
  unfold high
  rw [UInt8.le_iff_toNat_le, UInt8.toNat_ofNat']
  show 192 ≤ _
  omega

theorem offset_encode (off : Fin 16384) : offset (high off) (low off) = off.val := by
  have := off.isLt
  unfold offset high low
  rw [UInt8.toNat_ofNat', UInt8.toNat_ofNat']
  omega

theorem encode_cons (l : Label) (ls : List Label) (pointer : Option (Fin 16384)) :
    Name.encode ⟨l :: ls, pointer⟩ = l.encode ++ Name.encode ⟨ls, pointer⟩ := by
  simp [Name.encode]

theorem name_skip (p : ℕ) (xs ys : List UInt8) :
    name p xs.length (xs ++ ys) = name (p + xs.length) 0 ys := by
  induction xs generalizing p with
  | nil => rfl
  | cons x xs ih =>
    rw [List.length_cons, List.cons_append, name, ih]
    congr 1
    omega

theorem name_encode (n : Name) (p : ℕ) (rest : List UInt8) :
    name p 0 (n.encode ++ rest) = .final (p + n.encode.length) := by
  obtain ⟨labels, pointer⟩ := n
  induction labels generalizing p with
  | nil =>
    cases pointer with
    | none => rfl
    | some off =>
      have hge := high_ge off
      simp [Name.encode, name, ne_zero hge, not_le_63 hge, hge]
  | cons l ls ih =>
    rw [encode_cons, List.append_assoc, Label.encode, List.cons_append, name,
      if_neg l.byte_ne_zero, if_pos l.byte_le, l.byte_toNat, name_skip, ih]
    simp only [List.cons_append, List.length_cons, List.length_append]
    congr 1
    omega

theorem registered_encode (n : Name) (p : ℕ) (tail : List (List UInt8)) (rest : List UInt8) :
    registered p 0 (n.encode ++ rest) = (suffixes p tail n.labels).map Prod.fst := by
  obtain ⟨labels, pointer⟩ := n
  induction labels generalizing p with
  | nil =>
    cases pointer with
    | none => rfl
    | some off =>
      have h63 := not_le_63 (high_ge off)
      simp [Name.encode, registered, suffixes, UInt8.not_le.mp h63]
  | cons l ls ih =>
    have hlow : ¬ (UInt8.ofNat l.octets.length < 1 ∨ 63 < UInt8.ofNat l.octets.length) := not_or.mpr
      ⟨fun h => l.byte_ne_zero (UInt8.lt_one_iff.mp h), UInt8.not_lt.mpr l.byte_le⟩
    rw [encode_cons, List.append_assoc, Label.encode, List.cons_append, registered, if_neg hlow,
      registered_skip, l.byte_toNat, List.drop_left, ih]
    rfl

theorem parts_encode {n : Name} (h : Holds pkt p n.encode) :
    Parts pkt p n.parts (n.pointer.map Fin.val) := by
  obtain ⟨labels, pointer⟩ := n
  induction labels generalizing p with
  | nil =>
    cases pointer with
    | none => exact .zero h.get
    | some off =>
      have hlow : Holds pkt (p + 1) [low off] := h.tail
      have hparts := Parts.pointer h.get (high_ge off) hlow.get
      rw [offset_encode] at hparts
      exact hparts
  | cons l ls ih =>
    rw [encode_cons] at h
    have hoctets : Holds pkt (p + 1) l.octets := h.left.tail
    have hrest := ih (p := p + 1 + l.octets.length) (by
      have := h.right
      rwa [Label.encode, List.length_cons, Nat.add_comm l.octets.length, ← Nat.add_assoc] at this)
    have hin : p + 1 + l.octets.length ≤ pkt.length := (Parts.lt hrest).le
    have hparts := Parts.part (c := UInt8.ofNat l.octets.length) h.left.get l.byte_ne_zero l.byte_le
      (by rwa [l.byte_toNat]) (by rwa [l.byte_toNat])
    rw [l.byte_toNat, hoctets.take] at hparts
    exact hparts

/-! ## What names stand for -/

theorem expands_mono {names names' : List ℕ} {ls : List (List UInt8)} {good : Bool}
    (h : Expands pkt names p ls good) (hgood : good = true) (hsub : ∀ q ∈ names, q ∈ names') :
    Expands pkt names' p ls good := by
  induction h with
  | zero h => exact .zero h
  | lost => cases hgood
  | pointer h hoff _ ih => exact .pointer h (hsub _ hoff) (ih hgood)

theorem nameText_eq {names : List ℕ} {ls : List (List UInt8)} (h : Expands pkt names p ls true) :
    nameText pkt names p = cstr (text ls) := by
  have hex : ∃ ls, Expands pkt names p ls true := ⟨ls, h⟩
  obtain ⟨m, e, -, hlast⟩ := h.copies p (rfl : copyName pkt names p 0 = .next p [])
  rw [written_text h.ne_nil] at hlast
  have hsame := hex.choose_spec.returned hlast
  simp only [lastTurn, if_true, Turn.ret.injEq, List.append_cancel_right_eq, true_and] at hsame
  rw [nameText, dif_pos hex, ← hsame]

/-- The positions of a table. -/
abbrev Table.names (known : Table) : List ℕ := known.map Prod.fst

/-- Every entry is what the name there expands to. -/
def Table.Ok (pkt : Packet) (known : Table) : Prop :=
  ∀ e ∈ known, Expands pkt known.names e.1 e.2 true

/-- A name in the packet, with what it resolves to. -/
structure Resolved (pkt : Packet) (known : Table) (p : ℕ) (n : Name) (t : List UInt8)
    (known' : Table) : Prop where
  scan : name p 0 (pkt.drop p) = .final (p + n.encode.length)
  names : known'.names = known.names ++ registered p 0 (pkt.drop p)
  copied : ∃ ls, t = text ls ∧ Expands pkt known.names p ls true ∧ (text ls).length ≤ 255
  ok : known'.Ok pkt

theorem expands_of_tail {n : Name} {tail : List (List UInt8)} (hok : known.Ok pkt)
    (h : Parts pkt p n.parts (n.pointer.map Fin.val)) (htail : n.tail known = some tail) :
    Expands pkt known.names p (n.parts ++ tail) true := by
  unfold Name.tail at htail
  cases hpointer : n.pointer with
  | none =>
    rw [hpointer] at h htail
    cases htail
    rw [List.append_nil]
    exact .zero h
  | some off =>
    rw [hpointer] at h htail
    obtain ⟨pre, post, hknown, -⟩ := List.lookup_eq_some_iff.1 htail
    have hmem : (off.val, tail) ∈ known := by simp [hknown]
    exact .pointer h (List.mem_map_of_mem hmem) (hok _ hmem)

theorem suffixes_expand {labels : List Label} {pointer : Option (Fin 16384)}
    {tail : List (List UInt8)} (hok : known.Ok pkt)
    (h : Parts pkt p (labels.map Label.octets) (pointer.map Fin.val))
    (hplace : Holds pkt p (Name.encode ⟨labels, pointer⟩))
    (htail : Name.tail known ⟨labels, pointer⟩ = some tail) :
    ∀ e ∈ suffixes p tail labels, Expands pkt known.names e.1 e.2 true := by
  induction labels generalizing p with
  | nil => simp [suffixes]
  | cons l ls ih =>
    intro e he
    rcases List.mem_cons.1 he with rfl | he
    · exact expands_of_tail hok h htail
    · rw [encode_cons] at hplace
      have hrest : Holds pkt (p + 1 + l.octets.length) (Name.encode ⟨ls, pointer⟩) := by
        have := hplace.right
        rwa [Label.encode, List.length_cons, Nat.add_comm l.octets.length, ← Nat.add_assoc] at this
      exact ih (parts_encode hrest) hrest htail e he

theorem Name.resolved {n : Name} {t : List UInt8} (h : Holds pkt p n.encode) (hok : known.Ok pkt)
    (hn : n.resolve known p = some (t, known')) : Resolved pkt known p n t known' := by
  obtain ⟨tail, htail, hn⟩ := Option.bind_eq_some_iff.1 hn
  split at hn
  · next hlen =>
    cases hn
    have hparts := parts_encode h
    have hexp := expands_of_tail hok hparts htail
    obtain ⟨rest, hdrop⟩ := h
    have hnames : Table.names (known ++ suffixes p tail n.labels) =
        known.names ++ registered p 0 (pkt.drop p) := by
      rw [hdrop, registered_encode n p tail, Table.names, List.map_append]
    refine ⟨?_, hnames, ⟨_, rfl, hexp, hlen⟩, ?_⟩
    · rw [hdrop, name_encode]
    · have hsub : ∀ q ∈ known.names, q ∈ Table.names (known ++ suffixes p tail n.labels) := by
        intro q hq
        rw [hnames]
        exact List.mem_append_left _ hq
      intro e he
      refine expands_mono ?_ rfl hsub
      rcases List.mem_append.1 he with he | he
      · exact hok e he
      · exact suffixes_expand hok hparts ⟨rest, hdrop⟩ htail e he
  · cases hn

/-! ## What the actions do -/

theorem copies_append (pkt : Packet) (names : List ℕ) (as bs : List Action) :
    copies pkt names (as ++ bs) = copies pkt names as ++ copies pkt (names ++ namesOf pkt as) bs := by
  induction as generalizing names with
  | nil => simp [copies, namesOf]
  | cons a as ih =>
    have hnames : names ++ namesOf pkt (a :: as) = names ++ a.registers pkt ++ namesOf pkt as := by
      simp [namesOf]
    rw [hnames]
    cases a with
    | copyName b ptr => simp [copies, ih, Action.registers]
    | _ => simp [copies, ih]

/-- The names and the copies of actions, from one table to another. -/
structure Effects (pkt : Packet) (known : Table) (acts : List Action) (known' : Table) : Prop where
  ok : known'.Ok pkt
  names : known'.names = known.names ++ namesOf pkt acts
  copies : ∀ call ∈ copies pkt known.names acts, ∃ ls good,
    Expands pkt call.1 call.2 ls good ∧ size ls good ≤ 256

theorem Effects.append {known'' : Table} {as bs : List Action} (h : Effects pkt known as known')
    (h' : Effects pkt known' bs known'') : Effects pkt known (as ++ bs) known'' := by
  refine ⟨h'.ok, ?_, ?_⟩
  · rw [h'.names, h.names, namesOf_append, List.append_assoc]
  · intro call hcall
    rw [copies_append, ← h.names] at hcall
    exact (List.mem_append.1 hcall).elim (h.copies call) (h'.copies call)

/-- Calls on the tree copy and register nothing. -/
def Quiet (acts : List Action) : Prop :=
  ∀ a ∈ acts, (∀ b ptr, a ≠ .copyName b ptr) ∧ ∀ s, a ≠ .register s

theorem Effects.quiet {acts : List Action} (hok : known.Ok pkt) (h : Quiet acts) :
    Effects pkt known acts known := by
  induction acts with
  | nil => exact ⟨hok, by simp [namesOf], by simp [Dns.copies]⟩
  | cons a as ih =>
    have hrest := ih fun b hb => h b (List.mem_cons_of_mem _ hb)
    have hone : Effects pkt known [a] known := by
      obtain ⟨hcopy, hreg⟩ := h a List.mem_cons_self
      cases a with
      | copyName b ptr => exact absurd rfl (hcopy b ptr)
      | register s => exact absurd rfl (hreg s)
      | _ => exact ⟨hok, by simp [namesOf, Action.registers], by simp [Dns.copies]⟩
    exact hone.append hrest

theorem Resolved.effects {n : Name} {t : List UInt8} (h : Resolved pkt known p n t known')
    (buf : Option Buf) : Effects pkt known (nameEnd buf p) known' := by
  refine ⟨h.ok, ?_, ?_⟩
  · rw [h.names]
    cases buf <;> simp [nameEnd, namesOf, Action.registers]
  · obtain ⟨ls, -, hexp, hlen⟩ := h.copied
    intro call hcall
    cases buf with
    | none => simp [nameEnd, Dns.copies] at hcall
    | some b =>
      simp only [nameEnd, Option.map_some, Option.toList_some, List.singleton_append, Dns.copies,
        List.mem_cons, List.not_mem_nil, or_false] at hcall
      subst hcall
      refine ⟨ls, true, hexp, ?_⟩
      simp only [size, if_true]
      omega

theorem Resolved.text {n : Name} {t : List UInt8} (h : Resolved pkt known p n t known') :
    nameText pkt known.names p = cstr t := by
  obtain ⟨ls, rfl, hexp, -⟩ := h.copied
  exact nameText_eq hexp

/-! ## Records -/

/-- A machine that has read an item: where it stops, and what its actions do. -/
structure Reads (pkt : Packet) (known : Table) (r : Option ℕ × List Action) (out : List TreeCall)
    (known' : Table) (p' : ℕ) : Prop where
  next : r.1 = some p'
  effects : Effects pkt known r.2 known'
  calls : ∀ texts, ∃ texts', ∀ as, calls pkt known.names texts (r.2 ++ as) =
    out ++ calls pkt known'.names texts' as

/-- The same behind the name of a record, with its text in `namebuf1`. -/
structure ReadsData (pkt : Packet) (known : Table) (owner : Text) (r : Option ℕ × List Action)
    (out : List TreeCall) (known' : Table) (p' : ℕ) : Prop where
  next : r.1 = some p'
  effects : Effects pkt known r.2 known'
  calls : ∀ texts, texts .namebuf1 = owner → ∃ texts', ∀ as,
    calls pkt known.names texts (r.2 ++ as) = out ++ calls pkt known'.names texts' as

theorem rdataName_reads {n : Name} {t : List UInt8} {owner : Text} {out : List TreeCall}
    (h : Resolved pkt known p n t known') (buf : Option Buf) {tree : List Action}
    (hquiet : Quiet tree) (hcalls : ∀ texts, texts .namebuf1 = owner → ∃ texts', ∀ as,
      calls pkt known.names texts (nameEnd buf p ++ (tree ++ as)) =
        out ++ calls pkt (known.names ++ registered p 0 (pkt.drop p)) texts' as) :
    ReadsData pkt known owner (rdataName pkt buf p tree) out known' (p + n.encode.length) := by
  have hread : rdataName pkt buf p tree = (some (p + n.encode.length), nameEnd buf p ++ tree) := by
    rw [rdataName, h.scan]
  rw [hread]
  refine ⟨rfl, (h.effects buf).append (.quiet h.ok hquiet), fun texts htext => ?_⟩
  obtain ⟨texts', hrest⟩ := hcalls texts htext
  exact ⟨texts', fun as => by rw [List.append_assoc, hrest, h.names]⟩

theorem rrType_other {n : ℕ} (h : n ∉ [1, 2, 5, 12, 15, 28]) : rrType n = .unknown := by
  unfold rrType
  split <;> simp at h ⊢

theorem address_holds {addr : List UInt8} (h : Holds pkt p addr) (hp : p ≤ pkt.length)
    (tree : List UInt8 → List Action) :
    address pkt addr.length p tree = (some (p + addr.length), tree addr) := by
  rw [address, if_pos (h.le hp), h.take]

theorem afterName_reads {r : ResourceRecord} {owner : List UInt8} {record : Record}
    (h : Holds pkt q (r.fixed ++ r.rdata.encode)) (hq : q ≤ pkt.length) (hok : known.Ok pkt)
    (hres : r.rdata.resolve known owner (q + 10) = some (record, known')) :
    ReadsData pkt known (cstr owner) (afterName pkt q) (cutRecord record).calls known'
      (q + 10 + r.rdata.encode.length) := by
  have hlen := h.le hq
  rw [List.length_append, fixed_length] at hlen
  have hdata : Holds pkt (q + 10) r.rdata.encode := h.right
  have htype : r.rdata.type < 65536 → Dns.word pkt q = r.rdata.type := fun hlt =>
    Holds.word (Holds.left (Holds.left h.left)) hlt
  have hrdlength : r.rdata.encode.length < 65536 →
      Dns.word pkt (q + 8) = r.rdata.encode.length := fun hlt => Holds.word (Holds.right h.left) hlt
  unfold afterName
  rw [if_neg (by omega)]
  clear h
  generalize r.rdata = rdata at *
  cases rdata with
  | a addr =>
    have haddr : addr.toList.length = 4 := by simp
    cases hres
    rw [htype (by simp [Rdata.type])]
    have hread := address_holds hdata (by omega)
    simp only [Rdata.encode, haddr] at hread ⊢
    simp only [Rdata.type, rrType, rrA, hread]
    refine ⟨rfl, .quiet hok (by simp [Quiet]), fun texts htext => ⟨texts, fun as => ?_⟩⟩
    simp [calls, cutRecord, Record.calls, htext]
  | aaaa addr =>
    have haddr : addr.toList.length = 16 := by simp
    cases hres
    rw [htype (by simp [Rdata.type])]
    have hread := address_holds hdata (by omega)
    simp only [Rdata.encode, haddr] at hread ⊢
    simp only [Rdata.type, rrType, rrAAAA, hread]
    refine ⟨rfl, .quiet hok (by simp [Quiet]), fun texts _ => ⟨texts, fun as => ?_⟩⟩
    simp [calls, cutRecord, Record.calls]
  | ns n =>
    obtain ⟨⟨t, known''⟩, hn, hrec⟩ := Option.map_eq_some_iff.1 hres
    cases hrec
    have hname := Name.resolved hdata hok hn
    rw [htype (by simp [Rdata.type])]
    refine rdataName_reads hname none (by simp [Quiet]) fun texts _ => ⟨texts, fun as => ?_⟩
    rw [calls_nameEnd_none]
    rfl
  | cname n =>
    obtain ⟨⟨t, known''⟩, hn, hrec⟩ := Option.map_eq_some_iff.1 hres
    cases hrec
    have hname := Name.resolved hdata hok hn
    rw [htype (by simp [Rdata.type])]
    refine rdataName_reads hname (some .namebuf2) (by simp [Quiet]) fun texts htext =>
      ⟨Function.update texts .namebuf2 (cstr t), fun as => ?_⟩
    rw [calls_nameEnd, hname.text]
    simp [calls, cutRecord, Record.calls, htext]
  | ptr n =>
    obtain ⟨⟨t, known''⟩, hn, hrec⟩ := Option.map_eq_some_iff.1 hres
    cases hrec
    have hname := Name.resolved hdata hok hn
    rw [htype (by simp [Rdata.type])]
    refine rdataName_reads hname (some .namebuf2) (by simp [Quiet]) fun texts _ =>
      ⟨Function.update texts .namebuf2 (nameText pkt known.names (q + 10)), fun as => ?_⟩
    rw [calls_nameEnd]
    rfl
  | mx preference n =>
    obtain ⟨⟨t, known''⟩, hn, hrec⟩ := Option.map_eq_some_iff.1 hres
    cases hrec
    have hname := Name.resolved (Holds.right hdata) hok hn
    rw [htype (by simp [Rdata.type])]
    have hread : ReadsData pkt known (cstr owner) (rrMx pkt (q + 10)) [] known''
        (q + 10 + 2 + n.encode.length) :=
      rdataName_reads hname none (by simp [Quiet]) fun texts _ => ⟨texts, fun as => by
        rw [calls_nameEnd_none]
        rfl⟩
    have hend : q + 10 + (Rdata.mx preference n).encode.length = q + 10 + 2 + n.encode.length := by
      simp only [Rdata.encode, List.length_append, word_length]
      omega
    rw [hend]
    exact hread
  | other type hother data hlt =>
    cases hres
    have hlow : type.toNat < 65536 := type.toNat_lt
    rw [htype hlow, show rrType (Rdata.other type hother data hlt).type = .unknown from
      rrType_other hother]
    simp only [rrUnknown, hrdlength hlt]
    rw [if_pos (by omega)]
    exact ⟨rfl, .quiet hok (by simp [Quiet]), fun texts _ => ⟨texts, fun as => rfl⟩⟩

theorem resourceRecord_reads {r : ResourceRecord} {record : Record} (h : Holds pkt p r.encode)
    (hp : p ≤ pkt.length) (hok : known.Ok pkt) (hres : r.resolve known p = some (record, known')) :
    Reads pkt known (resourceRecord pkt p) (cutRecord record).calls known' (p + r.encode.length) := by
  obtain ⟨⟨owner, known''⟩, hname, hdata⟩ := Option.bind_eq_some_iff.1 hres
  have howner := Name.resolved h.left hok hname
  have hq := (Holds.left h).le hp
  obtain ⟨hnext, heff, hcalls⟩ := afterName_reads (Holds.right h) hq howner.ok hdata
  have hend : p + r.encode.length = p + r.name.encode.length + 10 + r.rdata.encode.length := by
    rw [ResourceRecord.encode, List.length_append, List.length_append, fixed_length]
    omega
  have hread : resourceRecord pkt p = ((afterName pkt (p + r.name.encode.length)).1,
      nameEnd (some .namebuf1) p ++ (afterName pkt (p + r.name.encode.length)).2) := by
    rw [resourceRecord, howner.scan]
  rw [hread, hend]
  refine ⟨hnext, (howner.effects _).append heff, fun texts => ?_⟩
  obtain ⟨texts', hrest⟩ :=
    hcalls (Function.update texts .namebuf1 (cstr owner)) (Function.update_self ..)
  refine ⟨texts', fun as => ?_⟩
  rw [List.append_assoc, calls_nameEnd, howner.text, ← howner.names, hrest]

theorem question_reads {x : Question} {record : Record} (h : Holds pkt p x.encode)
    (hp : p ≤ pkt.length) (hok : known.Ok pkt) (hres : x.resolve known p = some (record, known')) :
    Reads pkt known (question pkt p) (cutRecord record).calls known' (p + x.encode.length) := by
  obtain ⟨⟨t, known''⟩, hn, hrec⟩ := Option.map_eq_some_iff.1 hres
  cases hrec
  have hname := Name.resolved h.left hok hn
  have hlen := h.le hp
  have hend : x.encode.length = x.name.encode.length + 4 := by simp [Question.encode]
  have hread : question pkt p = (some (p + x.encode.length), nameEnd (some .namebuf) p) := by
    rw [question, hname.scan]
    simp only
    rw [Nat.min_eq_left (by omega), hend, Nat.add_assoc]
  rw [hread]
  refine ⟨rfl, hname.effects _, fun texts =>
    ⟨Function.update texts .namebuf (nameText pkt known.names p), fun as => ?_⟩⟩
  rw [calls_nameEnd, hname.names]
  rfl

/-! ## Sections -/

/-- The ends of the items that a machine reads. -/
def itemEnds (machine : ℕ → Option ℕ × List Action) : ℕ → Option ℕ → List (Option ℕ)
  | 0, _ => []
  | _ + 1, none => []
  | count + 1, some p => (machine p).1 :: itemEnds machine count (machine p).1

section Items
variable {α : Type} {encode : α → List UInt8} {resolve : Table → ℕ → α → Option (Record × Table)}
  {machine : ℕ → Option ℕ × List Action}

theorem items_read (hitem : ∀ {p : ℕ} {known known' : Table} {x : α} {record : Record},
      Holds pkt p (encode x) → p ≤ pkt.length → known.Ok pkt →
      resolve known p x = some (record, known') →
      Reads pkt known (machine p) (cutRecord record).calls known' (p + (encode x).length))
    (xs : List α) {known known' : Table} {p : ℕ} {records : List Record}
    (h : Holds pkt p (xs.flatMap encode)) (hp : p ≤ pkt.length) (hok : known.Ok pkt)
    (hres : resolveAll encode resolve known p xs = some (records, known')) :
    Reads pkt known (items machine xs.length (some p))
      ((records.map cutRecord).flatMap Record.calls) known' (p + (xs.flatMap encode).length) ∧
    itemEnds machine xs.length (some p) =
      ((xs.map fun x => (encode x).length).scanl (· + ·) p).tail.map some := by
  induction xs generalizing known p records with
  | nil =>
    cases hres
    exact ⟨⟨rfl, .quiet hok (by simp [Quiet, items]), fun texts => ⟨texts, fun as => rfl⟩⟩, rfl⟩
  | cons x xs ih =>
    obtain ⟨⟨record, known1⟩, hx, hres⟩ := Option.bind_eq_some_iff.1 hres
    obtain ⟨⟨rest, known2⟩, hxs, hrec⟩ := Option.map_eq_some_iff.1 hres
    cases hrec
    rw [List.flatMap_cons] at h
    have hone := hitem h.left hp hok hx
    obtain ⟨hmany, hends⟩ := ih h.right (h.left.le hp) hone.effects.ok hxs
    have hlen : p + ((x :: xs).flatMap encode).length =
        p + (encode x).length + (xs.flatMap encode).length := by
      rw [List.flatMap_cons, List.length_append, Nat.add_assoc]
    rw [hlen, List.length_cons, items, itemEnds, hone.next]
    refine ⟨⟨hmany.next, hone.effects.append hmany.effects, fun texts => ?_⟩, ?_⟩
    · obtain ⟨texts1, h1⟩ := hone.calls texts
      obtain ⟨texts2, h2⟩ := hmany.calls texts1
      exact ⟨texts2, fun as => by simp [h1, h2]⟩
    · rw [hends, List.map_cons, List.scanl_cons, List.tail_cons]
      cases xs with
      | nil => rfl
      | cons y ys => simp [List.scanl_cons]

theorem section_reads (hitem : ∀ {p : ℕ} {known known' : Table} {x : α} {record : Record},
      Holds pkt p (encode x) → p ≤ pkt.length → known.Ok pkt →
      resolve known p x = some (record, known') →
      Reads pkt known (machine p) (cutRecord record).calls known' (p + (encode x).length))
    (xs : List α) (type : NodeType) {known known' : Table} {p : ℕ} {records : List Record}
    (h : Holds pkt p (xs.flatMap encode)) (hp : p ≤ pkt.length) (hok : known.Ok pkt)
    (hres : resolveAll encode resolve known p xs = some (records, known')) :
    Reads pkt known (sectionItems machine ⟨xs.length, type⟩ (some p))
      (Section.calls ⟨xs.length, type⟩ (records.map cutRecord)) known'
      (p + (xs.flatMap encode).length) := by
  obtain ⟨hread, -⟩ := items_read hitem xs h hp hok hres
  unfold sectionItems Section.calls
  by_cases hnil : xs = []
  · subst hnil
    cases hres
    exact ⟨rfl, .quiet hok (by simp [Quiet]), fun texts => ⟨texts, fun as => rfl⟩⟩
  · have hne : ¬ xs.length = 0 := fun h0 => hnil (List.length_eq_zero_iff.1 h0)
    simp only [if_neg hne]
    have hopen : Effects pkt known [.push type] known := .quiet hok (by simp [Quiet])
    have hclose : Effects pkt known' [.pop type] known' := .quiet hread.effects.ok (by simp [Quiet])
    refine ⟨hread.next, (hopen.append hread.effects).append hclose, fun texts => ?_⟩
    obtain ⟨texts', hcalls⟩ := hread.calls texts
    exact ⟨texts', fun as => by simp [calls, hcalls]⟩

end Items

/-! ## The tree -/

/-- Every push is popped. -/
inductive Closed : List TreeCall → Prop
  | nil : Closed []
  | setText (t : Text) : Closed [.setText t]
  | setData (data : List UInt8) : Closed [.setData data]
  | append {cs ds : List TreeCall} (hc : Closed cs) (hd : Closed ds) : Closed (cs ++ ds)
  | node (type : NodeType) {cs : List TreeCall} (hc : Closed cs) :
      Closed (.push type :: cs ++ [.pop type])

/-- The open nodes, and whether a pop has failed. -/
structure SameDepth {ρ : Type} (v w : MatchTree ρ) : Prop where
  top : w.vt.type = v.vt.type
  below : w.vs.map DataFrame.type = v.vs.map DataFrame.type
  topBarrier : w.topBarrier = v.topBarrier
  error : w.vptErrorOccurred = v.vptErrorOccurred

theorem Closed.sameDepth {μ ρ : Type} [DecidableEq μ] {cb : Callbacks μ ρ} {cs : List TreeCall}
    (h : Closed cs) {v w : MatchTree ρ} (hcalls : v.calls cb cs = some w) : SameDepth v w := by
  induction h generalizing v w with
  | nil =>
    cases hcalls
    exact ⟨rfl, rfl, rfl, rfl⟩
  | setText t =>
    cases hcalls
    exact ⟨rfl, rfl, rfl, rfl⟩
  | setData data =>
    cases hcalls
    exact ⟨rfl, rfl, rfl, rfl⟩
  | append _ _ ihc ihd =>
    rw [MatchTree.calls_append] at hcalls
    obtain ⟨u, hu, hw⟩ := Option.bind_eq_some_iff.1 hcalls
    have hc := ihc hu
    have hd := ihd hw
    exact ⟨hd.top.trans hc.top, hd.below.trans hc.below, hd.topBarrier.trans hc.topBarrier,
      hd.error.trans hc.error⟩
  | node type _ ih =>
    rw [List.cons_append, MatchTree.calls_cons, Option.bind_eq_some_iff] at hcalls
    obtain ⟨u, hu, hcalls⟩ := hcalls
    rw [MatchTree.calls_append, Option.bind_eq_some_iff] at hcalls
    obtain ⟨x, hx, hcalls⟩ := hcalls
    have hin := ih hx
    obtain ⟨a, -, rfl⟩ := Option.map_eq_some_iff.1 hu
    obtain ⟨htop, hbelow, hbar, herr⟩ := hin
    simp only at htop hbar herr
    have hpop : (x.pop cb type).map Prod.fst = some w := by
      rw [MatchTree.calls_cons] at hcalls
      obtain ⟨y, hy, hcalls⟩ := Option.bind_eq_some_iff.1 hcalls
      cases hcalls
      exact hy
    obtain ⟨r, hr, rfl⟩ := Option.map_eq_some_iff.1 hpop
    have hnonzero : ¬ x.topBarrier = 0 := by omega
    rw [MatchTree.pop, if_neg (not_not.2 htop), if_neg hnonzero] at hr
    obtain ⟨s, -, hr⟩ := Option.bind_eq_some_iff.1 hr
    cases hvs : x.vs with
    | nil => simp [hvs] at hr
    | cons below vs =>
      simp only [hvs, Option.some.injEq] at hr hbelow
      subst hr
      obtain ⟨hb, hrest⟩ := List.cons.inj hbelow
      exact ⟨hb, hrest, by simp only; omega, herr⟩

theorem Record.closed (r : Record) : Closed r.calls := by
  cases r with
  | a name addr =>
    exact .node .dnsRrA (.append (.node .dnsName (.setText name)) (.node .dnsAddr (.setData addr)))
  | aaaa => exact .node .dnsRrAAAA .nil
  | cname name target =>
    exact .node .dnsRrCname
      (.append (.node .dnsName (.setText name)) (.node .dnsName (.setText target)))
  | other => exact .nil

theorem Section.closed (sect : Section) (records : List Record) : Closed (sect.calls records) := by
  have hrecords : Closed (records.flatMap Record.calls) := by
    induction records with
    | nil => exact .nil
    | cons r records ih => exact .append (Record.closed r) ih
  unfold Section.calls
  split
  · exact .nil
  · exact .node _ hrecords

theorem Message.closed (sects : Sections) (m : Dns.Message) : Closed (m.calls sects) :=
  .node .dnsPacket (.append (.append (.append (Section.closed _ _) (Section.closed _ _))
    (Section.closed _ _)) (Section.closed _ _))

/-! ## The message -/

/-- The ends of the questions and records that `data` reads, and where it stops. -/
def dataEnds (pkt : Packet) (sect : Sections) : List (Option ℕ) × Option ℕ :=
  let h := header pkt sect
  let q := sectionItems (question pkt) h.2.qd (some h.1)
  let an := sectionItems (resourceRecord pkt) h.2.an q.1
  let ns := sectionItems (resourceRecord pkt) h.2.ns an.1
  let ar := sectionItems (resourceRecord pkt) h.2.ar ns.1
  (itemEnds (question pkt) h.2.qd.count (some h.1) ++
    itemEnds (resourceRecord pkt) h.2.an.count q.1 ++
    itemEnds (resourceRecord pkt) h.2.ns.count an.1 ++
    itemEnds (resourceRecord pkt) h.2.ar.count ns.1, ar.1)

/-- What `data` does with a message, whose records are shown as these. -/
structure Decoded (m : Message) (sect : Sections) (bufs : Buf → List UInt8)
    (records : Dns.Message) : Prop where
  returns : ∃ tree, Parsed m.encode sect bufs tree
  inBounds : ∀ c, Reach (parsing m.encode sect bufs) c → InBounds c
  ends : dataEnds m.encode sect = (m.ends.map some, some m.encode.length)
  tree : ∀ tree, Parsed m.encode sect bufs tree → tree = records.calls m.sections
  depth : ∀ tree, Parsed m.encode sect bufs tree → ∀ {μ ρ : Type} [DecidableEq μ]
    (cb : Callbacks μ ρ) (v w : MatchTree ρ), v.calls cb tree = some w → SameDepth v w

theorem header_encode (m : Message) (sect : Sections) :
    header m.encode sect = (12, m.sections) := by
  have h : Holds m.encode 0 m.header := ⟨_, List.drop_zero⟩
  have hlen : 12 ≤ m.encode.length := by
    rw [Message.encode, List.length_append]
    exact Nat.le_add_right _ _
  have hqd : Dns.word m.encode 4 = m.qd.length := Holds.word (h.right.left) m.qd_lt
  have han : Dns.word m.encode 6 = m.an.length := Holds.word (h.right.right.left) m.an_lt
  have hns : Dns.word m.encode 8 = m.ns.length := Holds.word (h.right.right.right.left) m.ns_lt
  have har : Dns.word m.encode 10 = m.ar.length := Holds.word (h.right.right.right.right) m.ar_lt
  unfold header
  simp only [hqd, han, hns, har]
  rw [if_pos (by omega), if_pos (by omega), if_pos (by omega), if_pos (by omega),
    Nat.min_eq_left hlen]
  rfl

theorem foldl_lengths {α : Type} (encode : α → List UInt8) (xs : List α) (p : ℕ) :
    (xs.map fun x => (encode x).length).foldl (· + ·) p = p + (xs.flatMap encode).length := by
  induction xs generalizing p with
  | nil => rfl
  | cons x xs ih =>
    rw [List.map_cons, List.foldl_cons, ih, List.flatMap_cons, List.length_append, Nat.add_assoc]

theorem scanl_tail_append (xs ys : List ℕ) (p : ℕ) : ((xs ++ ys).scanl (· + ·) p).tail =
    (xs.scanl (· + ·) p).tail ++ (ys.scanl (· + ·) (xs.foldl (· + ·) p)).tail := by
  rw [List.scanl_append, List.tail_append_of_ne_nil (by simp)]

theorem ends_sections (m : Message) : m.ends =
    ((m.qd.map fun q => q.encode.length).scanl (· + ·) 12).tail ++
    ((m.an.map fun r => r.encode.length).scanl (· + ·) m.anAt).tail ++
    ((m.ns.map fun r => r.encode.length).scanl (· + ·) m.nsAt).tail ++
    ((m.ar.map fun r => r.encode.length).scanl (· + ·) m.arAt).tail := by
  unfold Message.ends
  rw [List.map_append, List.map_append, scanl_tail_append, foldl_lengths, scanl_tail_append,
    List.foldl_append, foldl_lengths, foldl_lengths, scanl_tail_append, foldl_lengths]
  simp only [Message.anAt, Message.nsAt, Message.arAt, List.append_assoc]

theorem encode_length (m : Message) :
    m.encode.length = m.arAt + (m.ar.flatMap ResourceRecord.encode).length := by
  have hheader : m.header.length = 12 := rfl
  simp only [Message.encode, List.length_append, hheader, Message.anAt, Message.nsAt, Message.arAt]
  omega

/-- Where the sections are in the packet. -/
structure Placed (m : Message) : Prop where
  qd : Holds m.encode 12 (m.qd.flatMap Question.encode)
  an : Holds m.encode m.anAt (m.an.flatMap ResourceRecord.encode)
  ns : Holds m.encode m.nsAt (m.ns.flatMap ResourceRecord.encode)
  ar : Holds m.encode m.arAt (m.ar.flatMap ResourceRecord.encode)
  qd_le : 12 ≤ m.encode.length
  an_le : m.anAt ≤ m.encode.length
  ns_le : m.nsAt ≤ m.encode.length
  ar_le : m.arAt ≤ m.encode.length

theorem placed (m : Message) : Placed m := by
  have hlen := encode_length m
  have hall : Holds m.encode 12 (m.qd.flatMap Question.encode ++
      (m.an.flatMap ResourceRecord.encode ++ (m.ns.flatMap ResourceRecord.encode ++
        m.ar.flatMap ResourceRecord.encode))) := by
    have hwhole : Holds m.encode 0 (m.header ++ (m.qd.flatMap Question.encode ++
        (m.an.flatMap ResourceRecord.encode ++ (m.ns.flatMap ResourceRecord.encode ++
          m.ar.flatMap ResourceRecord.encode)))) := ⟨[], by simp [Message.encode]⟩
    exact hwhole.right
  have har : m.arAt = m.nsAt + (m.ns.flatMap ResourceRecord.encode).length := rfl
  have hns : m.nsAt = m.anAt + (m.an.flatMap ResourceRecord.encode).length := rfl
  have han : m.anAt = 12 + (m.qd.flatMap Question.encode).length := rfl
  exact ⟨hall.left, hall.right.left, hall.right.right.left, hall.right.right.right,
    by omega, by omega, by omega, by omega⟩

theorem data_reads {m : Message} {records : Dns.Message} (h : m.resolve = some (records, known))
    (sect : Sections) :
    dataEnds m.encode sect = (m.ends.map some, some m.encode.length) ∧
    Effects m.encode [] (data m.encode sect) known ∧
    ∀ texts, calls m.encode [] texts (data m.encode sect) =
      (cutMessage records).calls m.sections := by
  obtain ⟨⟨qd, known1⟩, hqd, h⟩ := Option.bind_eq_some_iff.1 h
  obtain ⟨⟨an, known2⟩, han, h⟩ := Option.bind_eq_some_iff.1 h
  obtain ⟨⟨ns, known3⟩, hns, h⟩ := Option.bind_eq_some_iff.1 h
  obtain ⟨⟨ar, known4⟩, har, hrecords⟩ := Option.map_eq_some_iff.1 h
  cases hrecords
  clear h
  have hm := placed m
  have hok : Table.Ok m.encode [] := by simp [Table.Ok]
  obtain ⟨hitems1, hends1⟩ := items_read question_reads m.qd hm.qd hm.qd_le hok hqd
  obtain ⟨hitems2, hends2⟩ :=
    items_read resourceRecord_reads m.an hm.an hm.an_le hitems1.effects.ok han
  obtain ⟨hitems3, hends3⟩ :=
    items_read resourceRecord_reads m.ns hm.ns hm.ns_le hitems2.effects.ok hns
  obtain ⟨-, hends4⟩ :=
    items_read resourceRecord_reads m.ar hm.ar hm.ar_le hitems3.effects.ok har
  have h1 := section_reads question_reads m.qd .dnsQuestion hm.qd hm.qd_le hok hqd
  have h2 := section_reads resourceRecord_reads m.an .dnsAnswer hm.an hm.an_le h1.effects.ok han
  have h3 := section_reads resourceRecord_reads m.ns .dnsAuthority hm.ns hm.ns_le h2.effects.ok hns
  have h4 := section_reads resourceRecord_reads m.ar .dnsAdditional hm.ar hm.ar_le h3.effects.ok har
  have hn1 : (sectionItems (question m.encode) ⟨m.qd.length, .dnsQuestion⟩ (some 12)).1 =
      some m.anAt := h1.next
  have hn2 : (sectionItems (resourceRecord m.encode) ⟨m.an.length, .dnsAnswer⟩ (some m.anAt)).1 =
      some m.nsAt := h2.next
  have hn3 : (sectionItems (resourceRecord m.encode) ⟨m.ns.length, .dnsAuthority⟩ (some m.nsAt)).1 =
      some m.arAt := h3.next
  have hopen : Effects m.encode [] [.push .dnsPacket] [] := .quiet hok (by simp [Quiet])
  have hclose : Effects m.encode known4 [.pop .dnsPacket] known4 :=
    .quiet h4.effects.ok (by simp [Quiet])
  refine ⟨?_, ?_, fun texts => ?_⟩
  · simp only [dataEnds, header_encode, Message.sections, hn1, hn2, hn3, hends1, hends2, hends3,
      hends4, h4.next, ends_sections, encode_length, List.map_append]
  · have hall := (hopen.append (((h1.effects.append h2.effects).append h3.effects).append
      h4.effects)).append hclose
    simp only [data, header_encode, Message.sections, hn1, hn2, hn3]
    exact hall
  · obtain ⟨texts1, hc1⟩ := h1.calls texts
    obtain ⟨texts2, hc2⟩ := h2.calls texts1
    obtain ⟨texts3, hc3⟩ := h3.calls texts2
    obtain ⟨texts4, hc4⟩ := h4.calls texts3
    simp only [data, header_encode, Message.sections, hn1, hn2, hn3, List.cons_append,
      List.append_assoc, calls]
    rw [show ([] : List ℕ) = Table.names [] from rfl, hc1, hc2, hc3, hc4]
    simp [calls, Message.calls, cutMessage]

/-- The parser decodes every well-formed message, with the names as C strings. -/
theorem decode_wellFormed (m : Message) {records : Dns.Message} (h : m.WellFormed records)
    (sect : Sections) (bufs : Buf → List UInt8) : Decoded m sect bufs (cutMessage records) := by
  obtain ⟨known, hres, h32⟩ := h
  obtain ⟨hends, heff, hcalls⟩ := data_reads hres sect
  have htree : ∀ tree, Parsed m.encode sect bufs tree →
      tree = (cutMessage records).calls m.sections := fun tree ht => ht.calls.trans (hcalls _)
  refine ⟨parsed_of_fits fun call hcall => ?_, ?_, hends, htree, fun tree ht μ ρ _ cb v w hw => ?_⟩
  · obtain ⟨ls, good, hexp, -⟩ := heff.copies call hcall
    exact ⟨ls, good, hexp⟩
  · refine (parsing_in_bounds _ sect bufs).2 ⟨?_, heff.copies⟩
    have hnames := congrArg List.length heff.names
    rw [List.length_map] at hnames
    simp only [List.map_nil, List.nil_append] at hnames
    omega
  · rw [htree tree ht] at hw
    exact (Message.closed _ _).sameDepth hw

/-- An answer to a question for `a`, whose name is a pointer to that of the question. -/
def answerMessage : Message where
  id := 1
  options := 0x8180
  qd := [⟨⟨[⟨[97], by decide, by decide⟩], none⟩, 1, 1⟩]
  an := [⟨⟨[], some 12⟩, 1, (0, 60), .a #v[1, 2, 3, 4]⟩]
  ns := []
  ar := []
  qd_lt := by decide
  an_lt := by decide
  ns_lt := by decide
  ar_lt := by decide

theorem decode_answer : Decoded answerMessage noSections (fun _ => [])
    (cutMessage ⟨[.other], [.a [97] [1, 2, 3, 4]], [], []⟩) :=
  decode_wellFormed answerMessage ⟨[(12, [[97]])], rfl, by decide⟩ noSections fun _ => []

/-- An answer for a name whose only label is a zero byte. -/
def zeroMessage : Message where
  id := 1
  options := 0x8180
  qd := []
  an := [⟨⟨[⟨[0], by decide, by decide⟩], none⟩, 1, (0, 60), .a #v[1, 2, 3, 4]⟩]
  ns := []
  ar := []
  qd_lt := by decide
  an_lt := by decide
  ns_lt := by decide
  ar_lt := by decide

/-- The label is lost in the tree. -/
theorem zero_label_cut : ¬ ∀ (m : Message) (records : Dns.Message), m.WellFormed records →
    ∀ (sect : Sections) (bufs : Buf → List UInt8), Decoded m sect bufs records := by
  intro h
  have hres : zeroMessage.resolve =
      some (⟨[], [.a [0] [1, 2, 3, 4]], [], []⟩, [(12, [[0]])]) := rfl
  have hdecoded := h zeroMessage _ ⟨_, hres, by decide⟩ noSections fun _ => []
  obtain ⟨tree, htree⟩ := hdecoded.returns
  have hsame := (hdecoded.tree tree htree).symm.trans
    (htree.calls.trans ((data_reads hres noSections).2.2 _))
  exact absurd hsame (by decide)

end Netp.Parse.Dns.Wire
