import Netp.Genf.JavaRuns

/-! # When the Java reader is right

A packet whose every filling with strings of the charset is read right is `Readable`
(`java_agrees_iff`). For the converse of `Packs.agrees_iff` there is a filling that is read wrong for each way in
which a packet is not `Readable`: mostly one of two that differ in a value of which the classes do not read the
first byte.
-/

namespace Netp.Genf.Java
open Netp.Lib
set_option autoImplicit false

/-- The charset has every string set. -/
def Charset (ops : List Op) : Prop := ∀ (k j : ℕ) (v : Value), lastSet ops k j = some v → InCharset v

/-- Every packet filled with such strings is read as it was packed. -/
def AlwaysAgrees (javac : Schema → Bool) (C : ℕ) (S : Schema) (P : List RecordFieldType) : Prop :=
  ∀ ops pk, Packs C S P ops pk → Charset ops → Agrees javac S P ops pk

/-- Records that are small enough for the runs below. -/
structure Small (S : Schema) (P : List RecordFieldType) : Prop where
  packet : recordSize true (fieldTypes P) ≤ 2 ^ 28
  element : ∀ s, .list s ∈ P → recordSize false (packStructs S s) ≤ 2 ^ 28

/-! ## What a result says -/

section Results
variable {javac : Schema → Bool} {S : Schema} {P fields : List RecordFieldType} {record : Record} {ops : List Op}
  {k : ℕ} {head : ℤ}

theorem dispatch_get {values : List Member} (h : dispatch javac S record P = some values) {j : ℕ}
    {ty : RecordFieldType} (hty : P[j]? = some ty) : ∃ x pos, values[j]? = some x ∧
      pktFind record 16 = some pos ∧ packetField record pos (fieldOffset true (fieldTypes P) j) ty = some x := by
  have hread := (Option.ite_none_right_eq_some.1 h).2
  obtain ⟨x, hx, hfx⟩ := mapM_zipIdx_get hread hty
  rw [Nat.zero_add] at hfx
  obtain ⟨pos, hpos, hfield⟩ := Option.bind_eq_some_iff.1 hfx
  exact ⟨x, pos, hx, hpos, hfield⟩

theorem visit_first {n : ℕ} {el : Element} {els : List Element}
    (h : Element.visit record fields n el = some els) : els = [] ∧ el.offset = 0 ∨
      ∃ rest, els = el :: rest ∧ el.offset ≠ 0 := by
  cases n with
  | zero => cases h
  | succ n =>
    rw [Element.visit] at h
    by_cases hvalid : el.valid = true
    · rw [if_pos hvalid] at h
      obtain ⟨el', -, h⟩ := Option.bind_eq_some_iff.1 h
      obtain ⟨rest, -, rfl⟩ := Option.map_eq_some_iff.1 h
      exact .inr ⟨rest, rfl, by simpa [Element.valid] using hvalid⟩
    · rw [if_neg hvalid] at h
      exact .inl ⟨(Option.some.inj h).symm, by simpa [Element.valid] using hvalid⟩

theorem load_offset {offset : ℤ} {el : Element} (h : Element.load record fields offset = some el) :
    el.offset = offset := by
  unfold Element.load at h
  simp only [Option.bind_eq_bind, Option.bind_eq_some_iff, Option.some.injEq] at h
  obtain ⟨_, -, _, -, _, -, rfl⟩ := h
  rfl

theorem visits_nil (h : Visits record fields ops [] head) : head = 0 := by
  obtain ⟨first, els, hnew, ⟨n, hvisit⟩, hall⟩ := h
  by_contra hne
  rw [Element.new, if_pos hne] at hnew
  rw [List.forall₂_nil_left_iff] at hall
  subst hall
  rcases visit_first hvisit with ⟨-, h0⟩ | ⟨rest, h, -⟩
  · exact hne ((load_offset hnew).symm.trans h0)
  · cases h

theorem visits_singleton (h : Visits record fields ops [k] head) :
    ∃ el, Element.load record fields head = some el ∧ el.Has fields ops k := by
  obtain ⟨first, els, hnew, ⟨n, hvisit⟩, hall⟩ := h
  obtain ⟨el, rest, hhas, hnil, rfl⟩ := List.forall₂_cons_left_iff.1 hall
  rcases visit_first hvisit with ⟨h, -⟩ | ⟨rest', h, hoff⟩
  · cases h
  · obtain ⟨rfl, -⟩ := List.cons.inj h
    refine ⟨el, ?_, hhas⟩
    by_cases h0 : head = 0
    · rw [Element.new, if_neg (not_not.2 h0)] at hnew
      rw [← Option.some.inj hnew] at hoff
      exact absurd rfl hoff
    · rwa [Element.new, if_pos h0] at hnew

theorem load_get {el : Element} (h : Element.load record fields head = some el) {i : ℕ}
    {ty : RecordFieldType} (hty : fields[i]? = some ty) : ∃ m pos, el.members[i]? = some m ∧
      pktFind record head = some pos ∧
      structField record pos (fieldOffset false (fieldTypes fields) i) ty = some m := by
  unfold Element.load at h
  simp only [Option.bind_eq_bind, Option.bind_eq_some_iff, Option.some.injEq] at h
  obtain ⟨pos, hpos, members, hmembers, _, -, rfl⟩ := h
  obtain ⟨m, hm, hfield⟩ := mapM_zipIdx_get hmembers hty
  rw [Nat.zero_add] at hfield
  exact ⟨m, pos, hm, hpos, hfield⟩

end Results

/-! ## What a field says that is read -/

section Fields
variable {record : Record} {pos : RecordPos} {off : ℕ} {r : Rope} {q : Ptr} {ty : RecordFieldType} {x : Member}

theorem intLiteral_range {number : List (Fin 10)} {n : ℤ} (h : intLiteral number = some n) :
    -2 ^ 31 ≤ n ∧ n < 2 ^ 31 := by
  unfold intLiteral at h
  split at h
  · next d ds =>
    simp only [Option.ite_none_right_eq_some, Option.some.injEq] at h
    obtain ⟨-, rfl⟩ := h
    exact ⟨BitVec.le_toInt _, BitVec.toInt_lt⟩
  · obtain ⟨hlt, h⟩ := Option.ite_none_right_eq_some.1 h
    have := Option.some.inj h
    omega

/-- The array that is read for a `char` has the length that Java takes its number for. -/
theorem char_length {number : List (Fin 10)} {bs : List UInt8}
    (h : loadField record pos off (.char number) = some (.bytes bs)) (hlen : pos.element.length < 2 ^ 31) :
    intLiteral number = some (bs.length : ℤ) := by
  simp only [loadField, Option.bind_eq_bind, Option.bind_eq_some_iff, Option.some.injEq,
    Member.bytes.injEq] at h
  obtain ⟨n, hn, bs', hrange, rfl⟩ := h
  obtain ⟨hlow, hhigh⟩ := intLiteral_range hn
  unfold copyOfRange at hrange
  obtain ⟨⟨h0, hstart, hstop⟩, hbs⟩ := Option.ite_none_right_eq_some.1 hrange
  have hcount : int32 (pos.offset + off + n) - (pos.offset + off) = n := by
    unfold int32 at hstop ⊢
    rw [BitVec.toInt_ofInt, Int.bmod_def] at hstop ⊢
    omega
  rw [hcount] at hbs
  rw [hn, ← Option.some.inj hbs, List.length_take, List.length_append, List.length_replicate,
    Nat.min_eq_left (Nat.le_add_left _ _)]
  congr 1
  omega

theorem ofLe_load_mod (m : Mem ℕ) (b i n : ℕ) : ofLe (m.load b i (n + 1)) % 256 = (m b i).toNat := by
  have hsplit : m.load b i (n + 1) = m b i :: m.load b (i + 1) n := by
    rw [Nat.add_comm n 1, Mem.load_add]
    rfl
  have := (m b i).toNat_lt
  rw [hsplit, ofLe]
  omega

theorem getInt_some {v : BitVec 32}
    (h : getInt (posAt r q).element ((posAt r q).offset + off) = some v) :
    v = BitVec.ofNat 32 (r.u32 (q.1, q.2 + off)) := by
  have hroom : q.2 + off + 4 ≤ r.len q.1 := by
    obtain ⟨bs, hbs, -⟩ := Option.map_eq_some_iff.1 h
    have := (Option.ite_none_right_eq_some.1 hbs).1.2
    simp only [posAt, Mem.load_length] at this
    omega
  rw [getInt_at hroom, Option.some.injEq] at h
  exact h.symm

theorem getLong_some {v : BitVec 64}
    (h : getLong (posAt r q).element ((posAt r q).offset + off) = some v) :
    v = BitVec.ofNat 64 (r.u64 (q.1, q.2 + off)) := by
  have hroom : q.2 + off + 8 ≤ r.len q.1 := by
    obtain ⟨bs, hbs, -⟩ := Option.map_eq_some_iff.1 h
    have := (Option.ite_none_right_eq_some.1 hbs).1.2
    simp only [posAt, Mem.load_length] at this
    omega
  rw [getLong_at hroom, Option.some.injEq] at h
  exact h.symm

/-- A value with this first byte, for a field that has its bytes in place. -/
def marked (b : UInt8) : RecordFieldType → Option Value
  | .int => some (.int (BitVec.ofNat 32 b.toNat))
  | .uint => some (.uint (BitVec.ofNat 32 b.toNat))
  | .long => some (.long (BitVec.ofNat 64 b.toNat))
  | .ulong => some (.ulong (BitVec.ofNat 64 b.toNat))
  | .char number => if 0 < atoi number then some (.char (List.replicate (atoi number) b)) else none
  | _ => none

theorem int_first_byte {b : UInt8} (h : BitVec.ofNat 32 (r.u32 q) = BitVec.ofNat 32 b.toNat) :
    r.mem q.1 q.2 = b := by
  have hnat := congrArg BitVec.toNat h
  have hlow : r.u32 q % 256 = (r.mem q.1 q.2).toNat := ofLe_load_mod r.mem q.1 q.2 3
  have hb := b.toNat_lt
  simp only [BitVec.toNat_ofNat] at hnat
  apply UInt8.toNat_inj.1
  omega

theorem long_first_byte {b : UInt8} (h : BitVec.ofNat 64 (r.u64 q) = BitVec.ofNat 64 b.toNat) :
    r.mem q.1 q.2 = b := by
  have hnat := congrArg BitVec.toNat h
  have hlow : r.u64 q % 256 = (r.mem q.1 q.2).toNat := ofLe_load_mod r.mem q.1 q.2 7
  have hb := b.toNat_lt
  simp only [BitVec.toNat_ofNat] at hnat
  apply UInt8.toNat_inj.1
  omega

/-- The first byte of such a value is the byte at the place where the field is looked for. -/
theorem first_byte {b : UInt8} {v : Value} (hv : marked b ty = some v)
    (h : packetField record (posAt r q) off ty = some x) (his : x.Is v) (hlt : q.2 + off < r.len q.1) :
    r.mem q.1 (q.2 + off) = b := by
  cases ty with
  | bool => cases hv
  | string => cases hv
  | list s => cases hv
  | int =>
    obtain ⟨w, hw, rfl⟩ := Option.map_eq_some_iff.1 h
    cases hv
    exact int_first_byte (q := (q.1, q.2 + off)) ((getInt_some hw).symm.trans his)
  | uint =>
    obtain ⟨w, hw, rfl⟩ := Option.map_eq_some_iff.1 h
    cases hv
    exact int_first_byte (q := (q.1, q.2 + off)) ((getInt_some hw).symm.trans his)
  | long =>
    obtain ⟨w, hw, rfl⟩ := Option.map_eq_some_iff.1 h
    cases hv
    exact long_first_byte (q := (q.1, q.2 + off)) ((getLong_some hw).symm.trans his)
  | ulong =>
    obtain ⟨w, hw, rfl⟩ := Option.map_eq_some_iff.1 h
    cases hv
    exact long_first_byte (q := (q.1, q.2 + off)) ((getLong_some hw).symm.trans his)
  | char number =>
    simp only [packetField, loadField, Option.bind_eq_bind, Option.bind_eq_some_iff, Option.some.injEq] at h
    obtain ⟨n, -, bs, hrange, rfl⟩ := h
    obtain ⟨hpos, hv⟩ := Option.ite_none_right_eq_some.1 hv
    obtain rfl := Option.some.inj hv
    have hbs : bs = List.replicate (atoi number) b := his
    have hfirst : bs[0]? = some b := by
      rw [hbs, List.getElem?_replicate, if_pos hpos]
    unfold copyOfRange at hrange
    have htake := Option.some.inj (Option.ite_none_right_eq_some.1 hrange).2
    have hidx : ((posAt r q).offset + (off : ℤ)).toNat = q.2 + off := by
      simp only [posAt]
      omega
    rw [← htake, List.getElem?_take, hidx] at hfirst
    split at hfirst
    · rw [List.getElem?_append_left (by simp only [posAt, List.length_drop, Mem.load_length]; omega),
        List.getElem?_drop, posAt, Mem.load_getElem? _ _ _ _ _ (by omega)] at hfirst
      have := Option.some.inj hfirst
      rwa [Nat.zero_add, Nat.add_zero] at this
    · cases hfirst

end Fields

/-! ## What is needed -/

theorem findFrom_mem {record : Record} {l : ℤ} {pos : RecordPos} (h : findFrom record l = some pos) :
    pos.element ∈ record := by
  induction record generalizing l with
  | nil => cases h
  | cons element rest ih =>
    rw [findFrom] at h
    split at h
    · rw [← Option.some.inj h]
      exact List.mem_cons_self
    · exact List.mem_cons_of_mem _ (ih h)

theorem element_length {r : Rope} {l : ℤ} {pos : RecordPos} (h : pktFind r.contents l = some pos) :
    pos.element.length ≤ r.length := by
  have hmem := findFrom_mem (Option.ite_none_left_eq_some.1 h).2
  unfold Rope.contents at hmem
  rw [List.mem_mapIdx] at hmem
  obtain ⟨b, hb, heq⟩ := hmem
  rw [← heq, Mem.load_length]
  exact List.single_le_sum (by simp) _ (List.mem_map_of_mem (List.getElem_mem hb))

theorem charset_of_ops {ops : List Op} (h : ∀ k j v, .set k j v ∈ ops → InCharset v) : Charset ops :=
  fun k j v hv => h k j v (lastSet_mem hv)

section Needed
variable {javac : Schema → Bool} {C : ℕ} {S : Schema} {P : List RecordFieldType}

theorem charset_filled (k : ℕ) (fields : List FieldType) : Charset (setStrings k fields) := by
  apply charset_of_ops
  intro k' j v hmem
  obtain ⟨j', -, heq⟩ := mem_setStrings.1 hmem
  cases heq
  intro b hb
  cases hb

theorem Charset.set {ops : List Op} (h : Charset ops) {k j : ℕ} {v : Value} (hv : InCharset v) :
    Charset (ops ++ [.set k j v]) := by
  intro k' j' v' hset
  rw [lastSet_set] at hset
  split at hset
  · rw [← Option.some.inj hset]
    exact hv
  · exact h k' j' v' hset

theorem lastSet_filled {k j : ℕ} {fields : List FieldType} {v : Value}
    (h : lastSet (setStrings k fields) k j = some v) : fields[j]? = some .string ∧ v = .string [] := by
  obtain ⟨j', hty, heq⟩ := mem_setStrings.1 (lastSet_mem h)
  cases heq
  exact ⟨hty, rfl⟩

theorem AlwaysAgrees.compiles (h : AlwaysAgrees javac C S P) (hC : 16 ≤ C) (hsize : Small S P) :
    S.compiles javac = true := by
  obtain ⟨r, p, hpacks, -⟩ := exists_filled hC S hsize.packet
  obtain ⟨values, hvalues, -⟩ := h _ _ hpacks (charset_filled 0 _)
  exact (Option.ite_none_right_eq_some.1 hvalues).1

/-- Without a byte of the record there is nothing behind the headers to be found. -/
theorem AlwaysAgrees.placed (h : AlwaysAgrees javac C S P) (hC : 16 ≤ C) :
    P = [] ∨ 0 < recordSize true (fieldTypes P) := by
  by_contra hno
  obtain ⟨hP, hsize⟩ := not_or.1 hno
  obtain ⟨ty, rest, rfl⟩ := List.exists_cons_of_ne_nil hP
  have h0 : recordSize true (fieldTypes (ty :: rest)) = 0 := by omega
  obtain ⟨r, hopen, hblocks⟩ := open_first (C := C) (P := ty :: rest) (by omega) (by omega) fun _ _ => 0
  have hpacks : Packs C S (ty :: rest) [] ⟨r, [packetAt (0, 16) (ty :: rest)], fun _ => (0, 0)⟩ := by
    refine ⟨⟨0, _, _, hopen, rfl⟩, ?_⟩
    intro k j o ho hty
    cases k with
    | zero =>
      obtain rfl := Option.some.inj ho
      have : 0 < recordSize true (fieldTypes (ty :: rest)) := recordSize_pos_of_field hty (by decide)
      omega
    | succ k => cases ho
  obtain ⟨values, hvalues, -⟩ := h _ _ hpacks (charset_of_ops (by simp))
  obtain ⟨x, pos, -, hpos, -⟩ := dispatch_get (j := 0) hvalues rfl
  have hfind := pktFind_contents (packetBaseSend r) 16
  have hnone : Genf.pktFind (packetBaseSend r) 16 = none := by
    simp [Genf.pktFind, Genf.findFrom, hblocks, h0]
  rw [hnone] at hfind
  have hpos : pktFind (packetBaseSend r).contents ((16 : ℕ) : ℤ) = some pos := hpos
  rw [hfind] at hpos
  cases hpos

/-- A `char` that holds zeros is read with the length that Java takes its number for. -/
theorem zero_number {record : Record} {pos : RecordPos} {off : ℕ} {number : List (Fin 10)} {x : Member}
    (h : loadField record pos off (.char number) = some x) (hlen : pos.element.length < 2 ^ 31)
    (his : x.Is (.char (List.replicate (atoi number) 0))) :
    intLiteral number = some ((atoi number : ℕ) : ℤ) := by
  cases x with
  | bytes bs =>
    have hbs : bs = List.replicate (atoi number) 0 := his
    rw [char_length h hlen, hbs, List.length_replicate]
  | _ => cases his

theorem AlwaysAgrees.numbers (h : AlwaysAgrees javac C S P) (hC : 16 ≤ C) (hsize : Small S P) :
    ∀ ty ∈ P, NumberOk ty := by
  rintro ty hmem number rfl
  obtain ⟨j, hj⟩ := List.mem_iff_getElem?.1 hmem
  obtain ⟨r, p, hpacks, hbase⟩ := exists_filled hC S hsize.packet
  obtain ⟨values, hvalues, hfields, -⟩ := h _ _ hpacks (charset_filled 0 _)
  obtain ⟨x, hx, his⟩ := hfields j _ hj fun s hs => by cases hs
  obtain ⟨x', pos, hx', hpos, hfield⟩ := dispatch_get hvalues hj
  obtain rfl : x = x' := Option.some.inj (hx.symm.trans hx')
  have hunset : lastSet (setStrings 0 (fieldTypes P)) 0 j = none := by
    apply Option.eq_none_iff_forall_ne_some.2
    intro v hv
    have hty := (lastSet_filled hv).1
    rw [fieldTypes_getElem?, hj] at hty
    cases hty
  unfold packedValue at his
  rw [hunset] at his
  have hlen : pos.element.length ≤ r.length := element_length (r := packetBaseSend r) hpos
  have hshort := hbase.length
  have hload : loadField (sentRecord ⟨r, [packetAt p P], fun _ => (0, 0)⟩) pos
      (fieldOffset true (fieldTypes P) j) (.char number) = some x := hfield
  exact zero_number hload (by omega) his

/-! ### A record in the second block -/

theorem store_congr {m m' : Mem ℕ} {b i : ℕ} (h : m b i = m' b i) (k j : ℕ) (bs : List UInt8) :
    m.store k j bs b i = m'.store k j bs b i := by
  unfold Mem.store
  rw [h]

theorem setNextLens_congr {m m' : Mem ℕ} {b i : ℕ} (h : m b i = m' b i) (k : ℕ) (bs : List RopeBlock) :
    setNextLens k bs m b i = setNextLens k bs m' b i := by
  induction bs generalizing k m m' with
  | nil => exact h
  | cons t bs ih => exact ih (store_congr h _ _ _) _

/-- What is stored elsewhere does not change a byte that is sent. -/
theorem packetBaseSend_store {r : Rope} {q : Ptr} {bs : List UInt8} {b i : ℕ}
    (h : b ≠ q.1 ∨ i < q.2 ∨ q.2 + bs.length ≤ i) :
    (packetBaseSend (r.store q bs)).mem b i = (packetBaseSend r).mem b i := by
  have hout : (r.store q bs).mem b i = r.mem b i := by
    refine if_neg ?_
    rintro ⟨hb, h1, h2⟩
    rcases h with h | h | h
    · exact h hb
    · omega
    · omega
  exact setNextLens_congr (store_congr (store_congr hout _ _ _) _ _ _) _ _

theorem marked_set {b : UInt8} {ty : RecordFieldType} {v : Value} (h : marked b ty = some v) :
    (∃ bs, inPlace true ty.analysed v = some bs) ∧ elementValue ty.analysed v = v ∧ InCharset v := by
  cases ty with
  | bool => cases h
  | string => cases h
  | list s => cases h
  | char number =>
    obtain ⟨-, h⟩ := Option.ite_none_right_eq_some.1 h
    obtain rfl := Option.some.inj h
    refine ⟨⟨_, if_pos List.length_replicate⟩, ?_, trivial⟩
    simp [elementValue, RecordFieldType.analysed]
  | _ =>
    cases h
    exact ⟨⟨_, rfl⟩, rfl, trivial⟩

/-- A field with its bytes in place is looked for four bytes before them. -/
theorem AlwaysAgrees.second_marked (h : AlwaysAgrees javac C S P) (hC : 16 ≤ C) (hsize : Small S P)
    (hfit : C < recordSize true (fieldTypes P) + 16) {j : ℕ} {ty : RecordFieldType} (hj : P[j]? = some ty)
    (hmarked : ∀ b, (marked b ty).isSome) : False := by
  obtain ⟨r, p, hpacks, hbase⟩ := exists_filled hC S hsize.packet
  obtain ⟨rfl, hfind⟩ := hbase.second hfit
  have hfj : (fieldTypes P)[j]? = some ty.analysed := by
    rw [fieldTypes_getElem?, hj]
    rfl
  have hlist : ∀ s, ty ≠ .list s := by
    rintro s rfl
    cases hmarked 0
  -- the byte that is read does not depend on the value
  have hbyte : ∀ b, (packetBaseSend r).mem 1 (fieldOffset true (fieldTypes P) j) = b := by
    intro b
    obtain ⟨v, hv⟩ := Option.isSome_iff_exists.1 (hmarked b)
    obtain ⟨⟨bs, hbs⟩, hvalue, hcharset⟩ := marked_set hv
    have hpacks' := hpacks.set (exec_inPlace (k := 0) (o := packetAt (1, 4) P) rfl hfj hbs)
    obtain ⟨values, hvalues, hfields, -⟩ := h _ _ hpacks' ((charset_filled 0 _).set hcharset)
    obtain ⟨x, hx, his⟩ := hfields j ty hj hlist
    obtain ⟨x', pos, hx', hpos, hfield⟩ := dispatch_get hvalues hj
    obtain rfl : x = x' := Option.some.inj (hx.symm.trans hx')
    have hpos16 := pktFind_contents (packetBaseSend (r.store ((packetAt (1, 4) P).slot j) bs)) 16
    have hfind' : Genf.pktFind (packetBaseSend (r.store ((packetAt (1, 4) P).slot j) bs)) 16 = some (1, 0) := hfind
    rw [hfind', Option.map_some] at hpos16
    obtain rfl := Option.some.inj (hpos.symm.trans hpos16)
    have hset : packedValue (setStrings 0 (fieldTypes P) ++ [.set 0 j v]) 0 j ty.analysed = v := by
      rw [packedValue, lastSet_set, if_pos ⟨rfl, rfl⟩]
      exact hvalue
    rw [hset] at his
    have hroom : 4 + fieldOffset true (fieldTypes P) j + fieldWidth true ty.analysed ≤ r.len 1 :=
      (hbase.placed.within (Obj.slot_within hfj)).1
    have hlt : 0 + fieldOffset true (fieldTypes P) j <
        (packetBaseSend (r.store ((packetAt (1, 4) P).slot j) bs)).len 1 := by
      show 0 + fieldOffset true (fieldTypes P) j < r.len 1
      omega
    have hread := first_byte hv hfield his hlt
    rw [Nat.zero_add] at hread
    rw [← hread]
    apply (packetBaseSend_store _).symm
    refine .inr (.inl ?_)
    show fieldOffset true (fieldTypes P) j < 4 + fieldOffset true (fieldTypes P) j
    omega
  have h0 := hbyte 0
  rw [hbyte 1] at h0
  cases h0

theorem allocs_filled (k : ℕ) (fields : List FieldType) : allocs (setStrings k fields) = [] := by
  apply List.filterMap_eq_nil_iff.2
  intro op hop
  obtain ⟨j, -, rfl⟩ := mem_setStrings.1 hop
  rfl

theorem toInt_ne_zero {u : ℕ} (h0 : u ≠ 0) (hu : u < 2 ^ 32) : (BitVec.ofNat 32 u).toInt ≠ 0 := by
  intro h
  have hzero : BitVec.ofNat 32 u = 0 := BitVec.eq_of_toInt_eq (by rw [h]; rfl)
  have := congrArg BitVec.toNat hzero
  rw [BitVec.toNat_ofNat, Nat.mod_eq_of_lt hu] at this
  exact h0 this

/-- The place where field `j` is looked for is that of the field four bytes before it. -/
theorem second_slot {r : Rope} {i j : ℕ} {fty : FieldType} (hi : (fieldTypes P)[i]? = some fty)
    (hin : InRope r (packetAt (1, 4) P).region) (hw : fieldWidth true fty = 4)
    (hoff : fieldOffset true (fieldTypes P) j = fieldOffset true (fieldTypes P) i + 4) :
    (packetBaseSend r).u32 (1, 0 + fieldOffset true (fieldTypes P) j) =
      r.u32 ((packetAt (1, 4) P).slot i) := by
  have hsame := sameAt_send (hin.within (Obj.slot_within hi))
  have hplace : (1, 0 + fieldOffset true (fieldTypes P) j) = (packetAt (1, 4) P).slot i := by
    simp only [Obj.slot, hoff]
    congr 1
    omega
  unfold SameAt at hsame
  simp only [Obj.slotRegion, hw] at hsame
  rw [hplace]
  exact congrArg ofLe hsame

/-- A list that is empty, and its head looked for where something else stands. -/
theorem second_list {r : Rope} {objs : List Obj} {tail : ℕ → Ptr} {ops : List Op} {j s : ℕ}
    (hagree : Agrees javac S P ops ⟨r, objs, tail⟩) (hfind : Genf.pktFind r 16 = some (1, 0))
    (hj : P[j]? = some (.list s)) (hnone : appended ops j = []) :
    (packetBaseSend r).u32 (1, 0 + fieldOffset true (fieldTypes P) j) = 0 := by
  obtain ⟨values, hvalues, -, hlists⟩ := hagree
  obtain ⟨head, hhead, -, hvisits⟩ := hlists j s hj
  obtain ⟨x, pos, hx, hpos, hfield⟩ := dispatch_get hvalues hj
  rw [hhead, Option.some.injEq] at hx
  subst hx
  have hpos16 := pktFind_contents (packetBaseSend r) 16
  rw [pktFind_send, hfind, Option.map_some] at hpos16
  obtain rfl := Option.some.inj (hpos.symm.trans hpos16)
  obtain ⟨v, hv, heq⟩ := Option.map_eq_some_iff.1 hfield
  obtain rfl := Member.int.inj heq
  rw [hnone] at hvisits
  have hzero := visits_nil hvisits
  rw [getInt_some hv] at hzero
  by_contra h0
  have hu := ofLe_lt ((packetBaseSend r).load (1, 0 + fieldOffset true (fieldTypes P) j) 4)
  rw [Rope.load, Mem.load_length] at hu
  exact toInt_ne_zero h0 hu hzero

theorem AlwaysAgrees.second_string (h : AlwaysAgrees javac C S P) (hC : 16 ≤ C) (hsize : Small S P)
    (hfit : C < recordSize true (fieldTypes P) + 16) {i j : ℕ} {ty : RecordFieldType}
    (hi : P[i]? = some .string) (hj : P[j]? = some ty) (hty : ty = .string ∨ ∃ s, ty = .list s)
    (hoff : fieldOffset true (fieldTypes P) j = fieldOffset true (fieldTypes P) i + 4) : False := by
  obtain ⟨r, p, hpacks, hbase⟩ := exists_filled hC S hsize.packet
  obtain ⟨rfl, hfind⟩ := hbase.second hfit
  have hfi : (fieldTypes P)[i]? = some .string := by
    rw [fieldTypes_getElem?, hi]
    rfl
  have hlen := hbase.length
  have hzero : (0 : UInt8) ∉ [97] := by decide
  obtain ⟨r', hexec, hgrown, q, hq, hbytes, hin⟩ := exec_string C (packStructs S)
    ⟨r, [packetAt (1, 4) P], fun _ => (0, 0)⟩ (k := 0) (o := packetAt (1, 4) P) rfl hfi hzero hbase.headed hbase.first
    hbase.placed (show r.length + (5 + 1) < 2 ^ 31 by omega)
  have hcharset : InCharset (.string [97]) := by
    intro b hb
    rw [List.mem_singleton.1 hb]
    decide
  have hagree := h _ _ (hpacks.set hexec) ((charset_filled 0 _).set hcharset)
  have hslot := second_slot (j := j) hfi (hgrown.inRope hbase.placed) rfl hoff
  have hfind' : Genf.pktFind r' 16 = some (1, 0) := hgrown.finds hfind
  rcases hty with rfl | ⟨s, rfl⟩
  · obtain ⟨values, hvalues, hfields, -⟩ := hagree
    obtain ⟨x, hx, his⟩ := hfields j _ hj fun s hs => by cases hs
    obtain ⟨x', pos, hx', hpos, hfield⟩ := dispatch_get hvalues hj
    obtain rfl : x = x' := Option.some.inj (hx.symm.trans hx')
    have hpos16 := pktFind_contents (packetBaseSend r') 16
    rw [pktFind_send, hfind', Option.map_some] at hpos16
    obtain rfl := Option.some.inj (hpos.symm.trans hpos16)
    -- what is read is the other string
    have hholds : SlotHolds (packetBaseSend r') [⟨q.1, q.2, 2⟩] true
        (1, 0 + fieldOffset true (fieldTypes P) j) (RecordFieldType.analysed .string) (.string [97]) := by
      refine ⟨q, ?_, List.mem_singleton_self _, (sameAt_send hin).trans hbytes⟩
      rw [hslot]
      exact hq
    have hfj : (fieldTypes P)[j]? = some .string := by
      rw [fieldTypes_getElem?, hj]
      rfl
    have hroom : 4 + fieldOffset true (fieldTypes P) j + 4 ≤ r'.len 1 :=
      ((hgrown.inRope hbase.placed).within (Obj.slot_within hfj)).1
    have hlen' : r'.length ≤ r.length + (5 + 1) := hgrown.length
    have hread : loadField (packetBaseSend r').contents (posAt (packetBaseSend r') (1, 0))
        (fieldOffset true (fieldTypes P) j) .string = some (.string (List.map asciiChar [97])) := by
      have hsmall : (packetBaseSend r').length < 2 ^ 31 := by
        show r'.length < 2 ^ 31
        omega
      refine loadField_holds (p := (1, 0)) hholds ?_ hsmall ?_ ?_ ?_ ?_ ?_
      · show 0 + fieldOffset true (fieldTypes P) j + 4 ≤ r'.len 1
        omega
      · intro g hg
        rw [List.mem_singleton.1 hg]
        exact hin.1
      · intro s hs
        cases hs
        exact hzero
      · intro number hnumber
        cases hnumber
      · intro hbool
        cases hbool
      · intro s hs
        cases hs
    obtain rfl := Option.some.inj (hread.symm.trans hfield)
    have hne : ¬ (0 = 0 ∧ i = j) := by
      rintro ⟨-, rfl⟩
      omega
    obtain ⟨v, hv⟩ := Option.isSome_iff_exists.1 (lastSet_isSome (mem_setStrings.2 ⟨j, hfj, rfl⟩))
    obtain ⟨-, rfl⟩ := lastSet_filled hv
    have hempty : packedValue (setStrings 0 (fieldTypes P) ++ [.set 0 i (.string [97])]) 0 j .string =
        .string [] := by
      rw [packedValue, lastSet_set, if_neg hne, hv]
      rfl
    have his : Member.Is (.string (List.map asciiChar [97])) (packedValue (setStrings 0 (fieldTypes P) ++
        [.set 0 i (.string [97])]) 0 j .string) := his
    rw [hempty] at his
    cases his
  · have hnone : appended (setStrings 0 (fieldTypes P) ++ [.set 0 i (.string [97])]) j = [] := by
      rw [appended_set, appended, allocs_filled]
      rfl
    have h0 := second_list hagree hfind' hj hnone
    rw [hslot] at h0
    rw [h0] at hq
    cases hq

theorem allocs_element (j : ℕ) (fields fields' : List FieldType) :
    allocs (setStrings 0 fields ++ .alloc j :: setStrings 1 fields') = [j] := by
  rw [allocs_append, allocs_filled, List.nil_append]
  show j :: allocs (setStrings 1 fields') = [j]
  rw [allocs_filled]

theorem charset_element (j : ℕ) (fields fields' : List FieldType) :
    Charset (setStrings 0 fields ++ .alloc j :: setStrings 1 fields') := by
  apply charset_of_ops
  intro k i v hmem
  simp only [List.mem_append, List.mem_cons, reduceCtorEq, false_or, mem_setStrings] at hmem
  have hv : v = .string [] := by
    rcases hmem with ⟨_, -, heq⟩ | ⟨_, -, heq⟩
    · cases heq
      rfl
    · cases heq
      rfl
  rw [hv]
  intro b hb
  cases hb

theorem AlwaysAgrees.second_lists (h : AlwaysAgrees javac C S P) (hC : 16 ≤ C) (hsize : Small S P)
    (hfit : C < recordSize true (fieldTypes P) + 16) {i j s t : ℕ} (hi : P[i]? = some (.list s))
    (hj : P[j]? = some (.list t))
    (hoff : fieldOffset true (fieldTypes P) j = fieldOffset true (fieldTypes P) i + 4) : False := by
  obtain ⟨r, p, elov, tail, hpacks, hin, hsecond⟩ :=
    exists_element hC hsize.packet hi (hsize.element s (List.mem_of_getElem? hi))
  obtain ⟨rfl, hfind, hne⟩ := hsecond hfit
  have hfi : (fieldTypes P)[i]? = some (.list s) := by
    rw [fieldTypes_getElem?, hi]
    rfl
  have hij : i ≠ j := by
    rintro rfl
    omega
  have hnone : appended (setStrings 0 (fieldTypes P) ++ .alloc i :: setStrings 1 (packStructs S s)) j = [] := by
    rw [appended, allocs_element]
    simp [hij]
  have h0 := second_list (h _ _ hpacks (charset_element i _ _)) hfind hj hnone
  rw [second_slot hfi hin rfl hoff] at h0
  exact hne h0

/-- Where every field has no byte or four, one begins at each fourth byte. -/
theorem exists_field_at {fields : List FieldType}
    (hw : ∀ fty ∈ fields, fieldWidth true fty = 0 ∨ fieldWidth true fty = 4) {m : ℕ}
    (hm : 4 * m < recordSize true fields) :
    ∃ j fty, fields[j]? = some fty ∧ fieldOffset true fields j = 4 * m ∧ fieldWidth true fty = 4 := by
  induction fields generalizing m with
  | nil => simp [recordSize, fieldOffset] at hm
  | cons fty fields ih =>
    have hsize : recordSize true (fty :: fields) = fieldWidth true fty + recordSize true fields := by
      simp [recordSize, fieldOffset]
    have hnext : ∀ j, fieldOffset true (fty :: fields) (j + 1) =
        fieldWidth true fty + fieldOffset true fields j := by
      intro j
      simp [fieldOffset]
    have hrest := fun gty hg => hw gty (List.mem_cons_of_mem fty hg)
    rw [hsize] at hm
    rcases hw fty List.mem_cons_self with h0 | h4
    · obtain ⟨j, gty, hj, hoff, hgw⟩ := ih hrest (m := m) (by omega)
      exact ⟨j + 1, gty, hj, by rw [hnext]; omega, hgw⟩
    · cases m with
      | zero => exact ⟨0, fty, rfl, by simp [fieldOffset], h4⟩
      | succ m =>
        obtain ⟨j, gty, hj, hoff, hgw⟩ := ih hrest (m := m) (by omega)
        exact ⟨j + 1, gty, hj, by rw [hnext]; omega, hgw⟩

/-- A record that does not fit behind the headers is looked for at the head of the second block. -/
theorem AlwaysAgrees.first (h : AlwaysAgrees javac C S P) (hC : 24 ≤ C) (hP : P ∈ S.packets) (hsize : Small S P) :
    recordSize true (fieldTypes P) + 16 ≤ C := by
  by_contra hfit
  have hfit : C < recordSize true (fieldTypes P) + 16 := by omega
  have hC' : 16 ≤ C := by omega
  have hbool := compiles_bool (h.compiles hC' hsize) hP
  -- what is left are strings and lists
  have hkind : ∀ ty ∈ P, ty = .string ∨ (∃ s, ty = .list s) ∨ fieldWidth true ty.analysed = 0 := by
    intro ty hty
    obtain ⟨j, hj⟩ := List.mem_iff_getElem?.1 hty
    cases ty with
    | bool => exact absurd hty hbool
    | string => exact .inl rfl
    | list s => exact .inr (.inl ⟨s, rfl⟩)
    | char number =>
      refine .inr (.inr ?_)
      by_contra hpos
      have hpos : 0 < atoi number := Nat.pos_of_ne_zero hpos
      exact h.second_marked hC' hsize hfit hj fun b => by simp [marked, hpos]
    | _ => exact (h.second_marked hC' hsize hfit hj fun b => rfl).elim
  have hw : ∀ fty ∈ fieldTypes P, fieldWidth true fty = 0 ∨ fieldWidth true fty = 4 := by
    intro fty hfty
    obtain ⟨ty, hty, rfl⟩ := List.mem_map.1 hfty
    rcases hkind ty hty with rfl | ⟨s, rfl⟩ | h0
    · exact .inr rfl
    · exact .inr rfl
    · exact .inl h0
  have hat : ∀ m, 4 * m < recordSize true (fieldTypes P) → ∃ j ty, P[j]? = some ty ∧
      fieldOffset true (fieldTypes P) j = 4 * m ∧ (ty = .string ∨ ∃ s, ty = .list s) := by
    intro m hm
    obtain ⟨j, fty, hj, hoff, hfw⟩ := exists_field_at hw hm
    rw [fieldTypes_getElem?, Option.map_eq_some_iff] at hj
    obtain ⟨ty, hty, rfl⟩ := hj
    refine ⟨j, ty, hty, hoff, ?_⟩
    rcases hkind ty (List.mem_of_getElem? hty) with hstr | hlist | h0
    · exact .inl hstr
    · exact .inr hlist
    · omega
  obtain ⟨i, ty0, hi, hoffi, hty0⟩ := hat 0 (by omega)
  obtain ⟨j, ty1, hj, hoffj, hty1⟩ := hat 1 (by omega)
  obtain ⟨k, ty2, hk, hoffk, hty2⟩ := hat 2 (by omega)
  rcases hty0 with rfl | ⟨s, rfl⟩
  · exact h.second_string hC' hsize hfit hi hj hty1 (by omega)
  · rcases hty1 with rfl | ⟨t, rfl⟩
    · exact h.second_string hC' hsize hfit hj hk hty2 (by omega)
    · exact h.second_lists hC' hsize hfit hi hj (by omega)

/-! ### Elements -/

/-- What is read of a field of the only element of list field `j`. -/
theorem element_read {r : Rope} {p : Ptr} {o : Obj} {tail : ℕ → Ptr} {ops : List Op} {i j s : ℕ}
    {ty : RecordFieldType} (hpacks : Packs C S P ops ⟨r, [packetAt p P, o], tail⟩)
    (hfit : recordSize true (fieldTypes P) + 16 ≤ C)
    (hagree : Agrees javac S P ops ⟨r, [packetAt p P, o], tail⟩) (hj : P[j]? = some (.list s))
    (hone : appended ops j = [1]) (hi : (S.struct s)[i]? = some ty) (hlist : ∀ t, ty ≠ .list t) :
    InRope r o.region ∧ r.length < 2 ^ 31 ∧
      ∃ x, structField (sentRecord ⟨r, [packetAt p P, o], tail⟩) (posAt (packetBaseSend r) o.overlay)
          (fieldOffset false (packStructs S s) i) ty = some (some x) ∧
        x.Is (packedValue ops 1 i ty.analysed) := by
  obtain ⟨id, strs, hfilled⟩ := hpacks.filled hfit
  refine ⟨hfilled.rep.objs_in 1 o rfl, hfilled.small, ?_⟩
  obtain rfl : p = (0, 16) := congrArg Obj.overlay (Option.some.inj hfilled.rep.record)
  have hfj : (fieldTypes P)[j]? = some (.list s) := by
    rw [fieldTypes_getElem?, hj]
    rfl
  have hleads := hfilled.linked.leads j s hfj
  rw [hone] at hleads
  obtain ⟨-, o', ho', hfind, -⟩ := hleads
  obtain rfl : o = o' := Option.some.inj ho'
  obtain ⟨values, -, -, hlists⟩ := hagree
  obtain ⟨head, -, hhead, hvisits⟩ := hlists j s hj
  have hoff : head.toNat = r.u32 (0, 16 + fieldOffset true (fieldTypes P) j) := hhead _ rfl
  have hsmall : head.toNat < 2 ^ 31 := hoff ▸ (pktFind_lt hfind).trans hfilled.small
  have hint : head.toInt = ((r.u32 (0, 16 + fieldOffset true (fieldTypes P) j) : ℕ) : ℤ) := by
    rw [BitVec.toInt_eq_toNat_of_lt (by omega), hoff]
  rw [hone, hint] at hvisits
  obtain ⟨el, hload, hhas⟩ := visits_singleton hvisits
  obtain ⟨x, hx, his⟩ := hhas i ty hi hlist
  obtain ⟨m, pos, hm, hpos, hfield⟩ := load_get hload hi
  obtain rfl := Option.some.inj (hx.symm.trans hm)
  have hpos' := pktFind_contents (packetBaseSend r) (r.u32 (0, 16 + fieldOffset true (fieldTypes P) j))
  rw [pktFind_send, hfind, Option.map_some] at hpos'
  obtain rfl := Option.some.inj (hpos.symm.trans hpos')
  exact ⟨x, hfield, his⟩

theorem AlwaysAgrees.element_bool (h : AlwaysAgrees javac C S P) (hC : 16 ≤ C) (hsize : Small S P)
    (hfit : recordSize true (fieldTypes P) + 16 ≤ C) {s : ℕ} (hs : .list s ∈ P) : .bool ∉ S.struct s := by
  intro hbool
  obtain ⟨j, hj⟩ := List.mem_iff_getElem?.1 hs
  obtain ⟨i, hi⟩ := List.mem_iff_getElem?.1 hbool
  obtain ⟨r, p, elov, tail, hpacks, -, -⟩ := exists_element hC hsize.packet hj (hsize.element s hs)
  have hfi : (packStructs S s)[i]? = some .bool := by
    rw [packStructs, fieldTypes_getElem?, hi]
    rfl
  have hone : appended (setStrings 0 (fieldTypes P) ++ .alloc j :: setStrings 1 (packStructs S s)) j = [1] := by
    rw [appended, allocs_element]
    simp
  -- the byte that is read does not depend on the value
  have hbyte : ∀ v : Bool, (packetBaseSend r).mem elov.1 (fieldOffset false (packStructs S s) i) =
      if v then 1 else 0 := by
    intro v
    have hpacks' := hpacks.set (exec_inPlace (k := 1) (v := .bool v) rfl hfi rfl)
    obtain ⟨hin, -, x, hfield, his⟩ := element_read hpacks' hfit
      (h _ _ hpacks' ((charset_element j _ _).set trivial)) hj (by rw [appended_set, hone]) hi
      fun t ht => by cases ht
    have hset : packedValue (setStrings 0 (fieldTypes P) ++ .alloc j :: setStrings 1 (packStructs S s) ++
        [.set 1 i (.bool v)]) 1 i .bool = .bool v := by
      rw [packedValue, lastSet_set, if_pos ⟨rfl, rfl⟩]
      rfl
    have his : x.Is (packedValue (setStrings 0 (fieldTypes P) ++ .alloc j :: setStrings 1 (packStructs S s) ++
        [.set 1 i (.bool v)]) 1 i .bool) := his
    rw [hset] at his
    obtain ⟨b, hb, heq⟩ := Option.map_eq_some_iff.1 hfield
    obtain rfl := Option.some.inj heq
    have hbv : b = if v then 1 else 0 := his
    have hbehind : 4 ≤ elov.2 := hin.2.1
    have hroom : elov.2 + fieldOffset false (packStructs S s) i + 1 ≤ r.len elov.1 :=
      (hin.within (Obj.slot_within hfi)).1
    rw [posAt, Mem.load_getElem? _ _ _ _ _ (by
      show fieldOffset false (packStructs S s) i < r.len elov.1
      omega), Nat.zero_add, Option.some.injEq] at hb
    rw [← hbv, ← hb]
    apply (packetBaseSend_store _).symm
    refine .inr (.inl ?_)
    show fieldOffset false (packStructs S s) i < elov.2 + fieldOffset false (packStructs S s) i
    omega
  have h0 := hbyte false
  rw [hbyte true] at h0
  cases h0

theorem AlwaysAgrees.elements (h : AlwaysAgrees javac C S P) (hC : 16 ≤ C) (hsize : Small S P)
    (hfit : recordSize true (fieldTypes P) + 16 ≤ C) :
    ∀ s, .list s ∈ P → ∀ ty ∈ S.struct s, ty ≠ .bool ∧ NumberOk ty := by
  intro s hs ty hty
  refine ⟨?_, ?_⟩
  · rintro rfl
    exact h.element_bool hC hsize hfit hs hty
  rintro number rfl
  obtain ⟨j, hj⟩ := List.mem_iff_getElem?.1 hs
  obtain ⟨i, hi⟩ := List.mem_iff_getElem?.1 hty
  obtain ⟨r, p, elov, tail, hpacks, -, -⟩ := exists_element hC hsize.packet hj (hsize.element s hs)
  have hone : appended (setStrings 0 (fieldTypes P) ++ .alloc j :: setStrings 1 (packStructs S s)) j = [1] := by
    rw [appended, allocs_element]
    simp
  obtain ⟨-, hsmall, x, hfield, his⟩ := element_read hpacks hfit
    (h _ _ hpacks (charset_element j _ _)) hj hone hi fun t ht => by cases ht
  obtain ⟨x', hx', heq⟩ := Option.map_eq_some_iff.1 hfield
  obtain rfl := Option.some.inj heq
  have hunset : lastSet (setStrings 0 (fieldTypes P) ++ .alloc j :: setStrings 1 (packStructs S s)) 1 i =
      none := by
    apply Option.eq_none_iff_forall_ne_some.2
    intro v hv
    have hmem := lastSet_mem hv
    simp only [List.mem_append, List.mem_cons, reduceCtorEq, false_or, mem_setStrings] at hmem
    rcases hmem with ⟨_, -, heq⟩ | ⟨i', hi', heq⟩
    · cases heq
    · cases heq
      rw [packStructs, fieldTypes_getElem?, hi] at hi'
      cases hi'
  unfold packedValue at his
  rw [hunset] at his
  refine zero_number hx' ?_ his
  simp only [posAt, Mem.load_length]
  exact (len_le_length (packetBaseSend r) elov.1).trans_lt hsmall

end Needed

/-! ## The reader -/

/-- `PacketType` and `PacketField`, which `addDefaultDefs` adds to every program. -/
def packetTypeDef : List RecordFieldType := [.string, .int, .int, .list 0]

def packetFieldDef : List RecordFieldType := [.string, .bool, .int, .int, .int]

/-- A program with a packet `[int, string, list]` of elements `[string, long, char( 16 )]`. -/
def quoteList : List RecordFieldType := [.int, .string, .list 1]

def sixteen : List (Fin 10) := [⟨1, by decide⟩, ⟨6, by decide⟩]

def quoteDef : List RecordFieldType := [.string, .long, .char sixteen]

/-- Fields with their names. -/
def named (ids : List String) (types : List RecordFieldType) : List RecordFieldDef :=
  (ids.zip types).map fun p => ⟨p.1, p.2⟩

def defaultPacket : PacketDef :=
  ⟨"PacketType", 1, named ["_name", "numId", "numFields", "fields"] packetTypeDef⟩

def defaultStruct : StructDef :=
  ⟨"PacketField", named ["name", "_tag", "type", "size", "_offset"] packetFieldDef⟩

def quoteDefs : Schema :=
  ⟨[defaultPacket, ⟨"Quotes", 1001, named ["day", "market", "quotes"] quoteList⟩],
    [defaultStruct, ⟨"Quote", named ["stock", "price", "code"] quoteDef⟩]⟩

theorem quoteList_struct {s : ℕ} (hs : .list s ∈ quoteList) :
    quoteDefs.struct s = quoteDef := by
  simp only [quoteList, List.mem_cons, reduceCtorEq, RecordFieldType.list.injEq, List.not_mem_nil, or_false,
    false_or] at hs
  subst hs
  rfl

theorem quoteList_small : Small quoteDefs quoteList := by
  refine ⟨by decide, fun s hs => ?_⟩
  rw [packStructs, quoteList_struct hs]
  decide

theorem quoteList_readable : Readable (fun _ => true) 4096 quoteDefs quoteList := by
  refine ⟨by decide, by decide, .inr (by decide), ?_, ?_⟩
  · intro ty hty number hnumber
    subst hnumber
    simp [quoteList] at hty
  · intro s hs ty hty
    rw [quoteList_struct hs] at hty
    refine ⟨?_, ?_⟩
    · rintro rfl
      simp [quoteDef] at hty
    · rintro number rfl
      simp only [quoteDef, List.mem_cons, reduceCtorEq, RecordFieldType.char.injEq, List.not_mem_nil, or_false,
        false_or] at hty
      subst hty
      rfl

/-- A `PacketType` with one field, a tag. -/
def tagged : List Op := [.set 0 0 (.string []), .alloc 3, .set 1 0 (.string []), .set 1 1 (.bool true)]

def defaultDefs : Schema := ⟨[defaultPacket], [defaultStruct]⟩

/-- The packer after `tagged`. -/
def taggedPacker (mem : Mem ℕ) : Option Packer :=
  (openPacker 4096 mem 0 (fieldTypes packetTypeDef)).bind fun pk =>
    execAll 4096 (packStructs defaultDefs) pk tagged

theorem tagged_run : (taggedPacker fun _ _ => 0).map (fun pk => (pk.objs, (packetBaseSend pk.rope).mem 0 8,
    pk.rope.len 0)) = some ([packetAt (0, 16) packetTypeDef, ⟨false, 3, (0, 33), packStructs defaultDefs 0⟩],
      55, 55) := rfl

theorem zero_of_string {fields : List FieldType} {j : ℕ} (htail : .string ∉ fields.tail)
    (hj : fields[j]? = some .string) : j = 0 := by
  cases j with
  | zero => rfl
  | succ j =>
    have hj' : fields.tail[j]? = some .string := by
      rw [List.getElem?_tail]
      exact hj
    exact absurd (List.mem_of_getElem? hj') htail

end Netp.Genf.Java
