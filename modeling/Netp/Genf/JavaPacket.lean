import Netp.Genf.JavaReads

/-! # Packets and their elements in Java

`load` and `read` over fields that are read as they were packed, and the iteration along the links. Where
`Readable` holds a packet is read as it was packed exactly if the charset has all its strings
(`Packs.agrees_iff`).
-/

namespace Netp.Genf.Java
open Netp.Lib
set_option autoImplicit false

/-! ## Classes -/

section MapM
variable {α β : Type} {l : List α} {n j : ℕ} {a : α}

theorem mapM_some {f : α → Option β} (h : ∀ a ∈ l, ∃ b, f a = some b) : ∃ r, l.mapM f = some r := by
  induction l with
  | nil => exact ⟨[], rfl⟩
  | cons a l ih =>
    obtain ⟨b, hb⟩ := h a List.mem_cons_self
    obtain ⟨r, hr⟩ := ih fun a ha => h a (List.mem_cons_of_mem _ ha)
    exact ⟨b :: r, by simp [List.mapM_cons, hb, hr]⟩

/-- What stands at place `j` of a list that is read field by field. -/
theorem mapM_zipIdx_get {f : α × ℕ → Option β} {r : List β} (h : (l.zipIdx n).mapM f = some r)
    (hj : l[j]? = some a) : ∃ b, r[j]? = some b ∧ f (a, n + j) = some b := by
  induction l generalizing n r j with
  | nil => cases hj
  | cons c l ih =>
    rw [List.zipIdx_cons, List.mapM_cons] at h
    simp only [Option.bind_eq_bind, Option.bind_eq_some_iff, Option.pure_def, Option.some.injEq] at h
    obtain ⟨b, hb, r', hr', rfl⟩ := h
    cases j with
    | zero =>
      rw [List.getElem?_cons_zero, Option.some.injEq] at hj
      subst hj
      exact ⟨b, rfl, hb⟩
    | succ j =>
      obtain ⟨b', hb', hf⟩ := ih hr' hj
      refine ⟨b', hb', ?_⟩
      rwa [Nat.add_right_comm, Nat.add_assoc] at hf

end MapM

/-- The members that are read of object `k`, one by one. -/
def Element.Reads (fields : List RecordFieldType) (ops : List Op) (k : ℕ) (el : Element) : Prop :=
  ∀ (i : ℕ) (ty : RecordFieldType), fields[i]? = some ty → (∀ s, ty ≠ .list s) →
    el.members[i]? = some (some (Member.ofValue (packedValue ops k i ty.analysed)))

section Classes
variable {C id k off : ℕ} {javac : Schema → Bool} {S : Schema} {P fields : List RecordFieldType} {ops : List Op}
  {strs : List (Region ℕ)} {pk : Packer} {o : Obj} {ks : List ℕ}

theorem structField_eq {record : Record} {recordPos : RecordPos} {offset : ℕ} {ty : RecordFieldType}
    (hbool : ty ≠ .bool) (hlist : ∀ s, ty ≠ .list s) :
    structField record recordPos offset ty = (loadField record recordPos offset ty).map some := by
  cases ty with
  | bool => exact absurd rfl hbool
  | list s => exact absurd rfl (hlist s)
  | _ => rfl

/-- The fields of an element, where none is a `bool`. -/
structure ElementFields (ops : List Op) (k : ℕ) (o : Obj) (fields : List RecordFieldType) : Prop where
  packet : o.packet = false
  types : o.fields = fieldTypes fields
  plain : ∀ ty ∈ fields, ty ≠ .bool ∧ NumberOk ty
  strings : ∀ j, fields[j]? = some .string → (lastSet ops k j).isSome

theorem Filled.load (h : Filled id S P ops strs pk) (ho : pk.objs[k]? = some o)
    (hf : ElementFields ops k o fields) (hfind : Genf.pktFind pk.rope off = some o.overlay) :
    ∃ el, Element.load (sentRecord pk) fields off = some el ∧ el.offset = off ∧
      el.next = (BitVec.ofNat 32 (pk.rope.u32 o.overlay)).toInt ∧ el.Reads fields ops k := by
  have hread : ∀ (j : ℕ) (ty : RecordFieldType), fields[j]? = some ty → (∀ s, ty ≠ .list s) →
      structField (sentRecord pk) (posAt (packetBaseSend pk.rope) o.overlay)
        (fieldOffset false (fieldTypes fields) j) ty =
      some (some (Member.ofValue (packedValue ops k j ty.analysed))) := by
    intro j ty hty hlist
    obtain ⟨hbool, hnum⟩ := hf.plain ty (List.mem_of_getElem? hty)
    have := h.loadField ho hf.types hty hnum hbool hlist fun hs => hf.strings j (hs ▸ hty)
    rw [hf.packet, hf.types] at this
    rw [structField_eq hbool hlist, this, Option.map_some]
  obtain ⟨members, hmembers⟩ : ∃ members, fields.zipIdx.mapM (fun p =>
      structField (sentRecord pk) (posAt (packetBaseSend pk.rope) o.overlay)
        (fieldOffset false (fieldTypes fields) p.2) p.1) = some members := by
    apply mapM_some
    rintro ⟨ty, j⟩ hmem
    have hty : fields[j]? = some ty := List.mem_zipIdx_iff_getElem?.1 hmem
    cases ty with
    | list s => exact ⟨none, rfl⟩
    | _ => exact ⟨_, hread j _ hty fun s hs => by cases hs⟩
  have hpos : pktFind (sentRecord pk) off = some (posAt (packetBaseSend pk.rope) o.overlay) := by
    have hsent : Genf.pktFind (packetBaseSend pk.rope) off = some o.overlay := hfind
    rw [sentRecord, pktFind_contents, hsent, Option.map_some]
  have hlink := (h.rep.objs_in k o ho).within (Obj.next_within hf.packet)
  have hnext : getInt (posAt (packetBaseSend pk.rope) o.overlay).element
      (posAt (packetBaseSend pk.rope) o.overlay).offset =
      some (BitVec.ofNat 32 (pk.rope.u32 o.overlay)) := by
    have hget : getInt (posAt (packetBaseSend pk.rope) o.overlay).element
        ((posAt (packetBaseSend pk.rope) o.overlay).offset + (0 : ℕ)) = _ := getInt_at hlink.1
    rw [Nat.cast_zero, add_zero] at hget
    rw [hget]
    exact congrArg (fun bs => some (BitVec.ofNat 32 (ofLe bs))) (sameAt_send hlink)
  refine ⟨⟨members, (BitVec.ofNat 32 (pk.rope.u32 o.overlay)).toInt, off⟩, ?_, rfl, rfl, ?_⟩
  · unfold Element.load
    simp only [hpos, Option.bind_eq_bind, Option.bind_some, hmembers, hnext]
  · intro i ty hty hlist
    obtain ⟨b, hb, hfb⟩ := mapM_zipIdx_get hmembers hty
    rw [Nat.zero_add, hread i ty hty hlist, Option.some.injEq] at hfb
    rw [hb, ← hfb]

theorem Filled.visit (h : Filled id S P ops strs pk) (hleads : Leads pk.rope pk.objs off ks)
    (hks : ∀ k ∈ ks, ∀ o, pk.objs[k]? = some o → ElementFields ops k o fields) {el : Element}
    (hoff : el.offset = off) (hload : off ≠ 0 → Element.load (sentRecord pk) fields off = some el) :
    ∃ els, Element.visit (sentRecord pk) fields (ks.length + 1) el = some els ∧
      List.Forall₂ (Element.Reads fields ops) ks els := by
  induction ks generalizing off el with
  | nil =>
    have h0 : el.offset = 0 := by
      rw [hoff, show off = 0 from hleads]
      rfl
    exact ⟨[], by simp [Element.visit, Element.valid, h0], List.Forall₂.nil⟩
  | cons k ks ih =>
    obtain ⟨hne, o, ho, hfind, hrest⟩ := hleads
    obtain ⟨el1, hel1, -, hnext, hreads⟩ := h.load ho (hks k List.mem_cons_self o ho) hfind
    rw [hload hne, Option.some.injEq] at hel1
    subst hel1
    have hvalid : el.valid = true := by
      simp [Element.valid, hoff, hne]
    -- the next link is 0 or the offset of an element
    have hsmall : pk.rope.u32 o.overlay < 2 ^ 31 := by
      cases ks with
      | nil =>
        rw [show pk.rope.u32 o.overlay = 0 from hrest]
        exact Nat.two_pow_pos 31
      | cons k' ks =>
        obtain ⟨-, o', -, hfind', -⟩ := hrest
        exact (pktFind_lt hfind').trans h.small
    rw [toInt_offset hsmall] at hnext
    obtain ⟨el', hadv, hoff', hload'⟩ : ∃ el', el.advance (sentRecord pk) fields = some el' ∧
        el'.offset = (pk.rope.u32 o.overlay : ℕ) ∧ (pk.rope.u32 o.overlay ≠ 0 →
          Element.load (sentRecord pk) fields (pk.rope.u32 o.overlay : ℕ) = some el') := by
      unfold Element.advance
      rw [hnext]
      cases ks with
      | nil =>
        have h0 : pk.rope.u32 o.overlay = 0 := hrest
        rw [h0]
        exact ⟨_, rfl, rfl, fun h => absurd rfl h⟩
      | cons k' ks =>
        obtain ⟨hne', o', ho', hfind', -⟩ := hrest
        obtain ⟨el', hel', hoff', -⟩ :=
          h.load ho' (hks k' (List.mem_cons_of_mem _ List.mem_cons_self) o' ho') hfind'
        rw [if_pos (by omega)]
        exact ⟨el', hel', hoff', fun _ => hel'⟩
    obtain ⟨els, hels, hall⟩ := ih hrest (fun k hk => hks k (List.mem_cons_of_mem _ hk)) hoff' hload'
    refine ⟨el :: els, ?_, List.Forall₂.cons hreads hall⟩
    rw [List.length_cons, Element.visit, if_pos hvalid, hadv, Option.bind_some, hels, Option.map_some]

/-- The packets that are read as they were packed. -/
structure Readable (javac : Schema → Bool) (C : ℕ) (S : Schema) (P : List RecordFieldType) : Prop where
  compiles : S.compiles javac = true
  /-- The record is behind the headers in the first block. -/
  first : recordSize true (fieldTypes P) + 16 ≤ C
  /-- It has a byte, if any field is looked for in it. -/
  placed : P = [] ∨ 0 < recordSize true (fieldTypes P)
  numbers : ∀ ty ∈ P, NumberOk ty
  elements : ∀ s, .list s ∈ P → ∀ ty ∈ S.struct s, ty ≠ .bool ∧ NumberOk ty

theorem compiles_bool (hcompiles : S.compiles javac = true) (hP : P ∈ S.packets) : .bool ∉ P := by
  intro hbool
  simp only [Schema.compiles, Bool.and_eq_true, List.all_eq_true] at hcompiles
  have hpacket := (Bool.and_eq_true_iff.1 (hcompiles.1.1.1 P hP)).2
  have := List.all_eq_true.1 hpacket _ hbool
  cases this

/-- The object of the packet itself. -/
abbrev packetObj (P : List RecordFieldType) : Obj := ⟨true, 0, (0, 16), fieldTypes P⟩

theorem Filled.reads (h : Filled id S P ops strs pk) (hread : Readable javac C S P) (hP : P ∈ S.packets)
    (hstrings : ∀ j, P[j]? = some .string → (lastSet ops 0 j).isSome) :
    ∃ values, dispatch javac S (sentRecord pk) P = some values ∧
      (∀ (j : ℕ) (ty : RecordFieldType), P[j]? = some ty → (∀ s, ty ≠ .list s) →
        values[j]? = some (Member.ofValue (packedValue ops 0 j ty.analysed))) ∧
      ∀ (j s : ℕ), P[j]? = some (.list s) →
        values[j]? = some (.int (BitVec.ofNat 32 (pk.rope.u32 ((packetObj P).slot j)))) := by
  rcases hread.placed with rfl | hpos
  · refine ⟨[], ?_, ?_, ?_⟩
    · rw [dispatch, if_pos hread.compiles]
      rfl
    · intro j ty hty
      cases hty
    · intro j s hs
      cases hs
  have hfind : pktFind (sentRecord pk) 16 = some (posAt (packetBaseSend pk.rope) (0, 16)) := by
    have := pktFind_contents (packetBaseSend pk.rope) 16
    rw [pktFind_send, pktFind_record h.rep.first hpos] at this
    exact this
  have hfield : ∀ (j : ℕ) (ty : RecordFieldType), P[j]? = some ty → (∀ s, ty ≠ .list s) →
      packetField (sentRecord pk) (posAt (packetBaseSend pk.rope) (0, 16))
        (fieldOffset true (fieldTypes P) j) ty =
      some (Member.ofValue (packedValue ops 0 j ty.analysed)) := by
    intro j ty hty hlist
    have hmem := List.mem_of_getElem? hty
    have hbool : ty ≠ .bool := by
      rintro rfl
      exact compiles_bool hread.compiles hP hmem
    have := h.loadField h.rep.record rfl hty (hread.numbers ty hmem) hbool hlist
      fun hs => hstrings j (hs ▸ hty)
    cases ty with
    | list s => exact absurd rfl (hlist s)
    | _ => exact this
  have hhead : ∀ (j s : ℕ), P[j]? = some (.list s) →
      packetField (sentRecord pk) (posAt (packetBaseSend pk.rope) (0, 16))
        (fieldOffset true (fieldTypes P) j) (.list s) =
      some (.int (BitVec.ofNat 32 (pk.rope.u32 ((packetObj P).slot j)))) := by
    intro j s hs
    have hfs : (fieldTypes P)[j]? = some (.list s) := by
      rw [fieldTypes_getElem?, hs]
      rfl
    have hslot := (h.rep.objs_in 0 _ h.rep.record).within (Obj.slot_within hfs)
    have := getInt_at (r := packetBaseSend pk.rope) (p := (0, 16)) hslot.1
    rw [packetField, this]
    exact congrArg (fun bs => some (Member.int (BitVec.ofNat 32 (ofLe bs)))) (sameAt_send hslot)
  obtain ⟨values, hvalues⟩ : ∃ values, read (sentRecord pk) P 16 = some values := by
    apply mapM_some
    rintro ⟨ty, j⟩ hmem
    have hty : P[j]? = some ty := List.mem_zipIdx_iff_getElem?.1 hmem
    rw [hfind, Option.bind_some]
    cases ty with
    | list s => exact ⟨_, hhead j s hty⟩
    | _ => exact ⟨_, hfield j _ hty fun s hs => by cases hs⟩
  refine ⟨values, ?_, ?_, ?_⟩
  · rw [dispatch, if_pos hread.compiles, hvalues]
  · intro j ty hty hlist
    obtain ⟨b, hb, hfb⟩ := mapM_zipIdx_get hvalues hty
    rw [Nat.zero_add, hfind, Option.bind_some, hfield j ty hty hlist, Option.some.injEq] at hfb
    rw [hb, ← hfb]
  · intro j s hs
    obtain ⟨b, hb, hfb⟩ := mapM_zipIdx_get hvalues hs
    rw [Nat.zero_add, hfind, Option.bind_some, hhead j s hs, Option.some.injEq] at hfb
    rw [hb, ← hfb]

theorem Filled.elements (h : Filled id S P ops strs pk) (hread : Readable javac C S P) (hpacks : Packs C S P ops pk)
    {j s : ℕ} (hs : P[j]? = some (.list s)) :
    pk.rope.u32 ((packetObj P).slot j) < 2 ^ 31 ∧
    ∃ first els, Element.new (sentRecord pk) (S.struct s) (pk.rope.u32 ((packetObj P).slot j) : ℕ) = some first ∧
      Element.visit (sentRecord pk) (S.struct s) ((appended ops j).length + 1) first = some els ∧
      List.Forall₂ (Element.Reads (S.struct s) ops) (appended ops j) els := by
  have hfs : (fieldTypes P)[j]? = some (.list s) := by
    rw [fieldTypes_getElem?, hs]
    rfl
  have hleads : Leads pk.rope pk.objs (pk.rope.u32 ((packetObj P).slot j)) (appended ops j) :=
    h.linked.leads j s hfs
  have hks : ∀ k ∈ appended ops j, ∀ o, pk.objs[k]? = some o → ElementFields ops k o (S.struct s) := by
    intro k hk o ho
    have htypes := h.linked.fields j s hfs k hk o ho
    refine ⟨h.rep.appended_packet hk ho, htypes, hread.elements s (List.mem_of_getElem? hs), ?_⟩
    intro i hi
    apply hpacks.strings k i o ho
    rw [htypes, packStructs, fieldTypes_getElem?, hi]
    rfl
  by_cases h0 : pk.rope.u32 ((packetObj P).slot j) = 0
  · have hnew : Element.new (sentRecord pk) (S.struct s) (pk.rope.u32 ((packetObj P).slot j) : ℕ) =
        some ⟨(S.struct s).map fun _ => none, 0, 0⟩ := by
      rw [h0]
      rfl
    have hoff : (⟨(S.struct s).map fun _ => none, 0, 0⟩ : Element).offset =
        (pk.rope.u32 ((packetObj P).slot j) : ℕ) := by
      rw [h0]
      rfl
    obtain ⟨els, hels, hall⟩ := h.visit hleads hks hoff fun hne => absurd h0 hne
    exact ⟨by omega, _, els, hnew, hels, hall⟩
  · cases ha : appended ops j with
    | nil =>
      rw [ha] at hleads
      exact absurd hleads h0
    | cons k rest =>
      have hleads' := hleads
      rw [ha] at hleads'
      obtain ⟨-, o, ho, hfind, -⟩ := hleads'
      obtain ⟨el, hel, hoff, -⟩ := h.load ho (hks k (by rw [ha]; exact List.mem_cons_self) o ho) hfind
      obtain ⟨els, hels, hall⟩ := h.visit hleads hks hoff fun _ => hel
      rw [ha] at hels hall
      refine ⟨(pktFind_lt hfind).trans h.small, el, els, ?_, hels, hall⟩
      rw [Element.new, if_pos (by omega)]
      exact hel

/-! ## The whole packet -/

theorem inCharset_packed {k j : ℕ} (h : ∀ v, lastSet ops k j = some v → InCharset v) (fty : FieldType) :
    InCharset (packedValue ops k j fty) := by
  unfold packedValue
  cases hv : lastSet ops k j with
  | none => cases fty <;> simp [zeroValue, InCharset]
  | some v =>
    have := h v hv
    unfold elementValue
    simp only [Option.map_some, Option.getD_some]
    split
    · trivial
    · exact this

theorem packedValue_string {k j : ℕ} {s : List UInt8} (h : lastSet ops k j = some (.string s)) :
    packedValue ops k j .string = .string s := by
  rw [packedValue, h]
  rfl

/-- A member that is read holds the packed value if the charset has it. -/
theorem Element.Reads.has_iff {k : ℕ} {el : Element} (h : el.Reads fields ops k) : el.Has fields ops k ↔
    ∀ (i : ℕ) (ty : RecordFieldType), fields[i]? = some ty → (∀ s, ty ≠ .list s) →
      InCharset (packedValue ops k i ty.analysed) := by
  constructor
  · intro hhas i ty hty hlist
    obtain ⟨x, hx, his⟩ := hhas i ty hty hlist
    rw [h i ty hty hlist, Option.some.injEq, Option.some.injEq] at hx
    rw [← ofValue_is, hx]
    exact his
  · intro hin i ty hty hlist
    exact ⟨_, h i ty hty hlist, (ofValue_is _).2 (hin i ty hty hlist)⟩

theorem grows_visit (record : Record) (fields : List RecordFieldType) (el : Element) :
    Grows fun n => Element.visit record fields n el := by
  intro n
  induction n generalizing el with
  | zero =>
    intro els h
    cases h
  | succ n ih =>
    simp only [Element.visit]
    split
    · exact (Below.refl _).bind fun el' => (ih el').map _
    · exact .refl _

theorem forall₂_mem {α β : Type} {R Q : α → β → Prop} {as : List α} {bs : List β}
    (h : List.Forall₂ R as bs) (h' : List.Forall₂ Q as bs) {a : α} (ha : a ∈ as) : ∃ b, R a b ∧ Q a b := by
  induction h with
  | nil => cases ha
  | cons hr _ ih =>
    cases h' with
    | cons hq h' =>
      rcases List.mem_cons.1 ha with rfl | ha
      · exact ⟨_, hr, hq⟩
      · exact ih h' ha

theorem Filled.appended (h : Filled id S P ops strs pk) {k : ℕ} (hk : 0 < k) (ho : pk.objs[k]? = some o) :
    ∃ i s, P[i]? = some (.list s) ∧ k ∈ appended ops i ∧ o.fields = packStructs S s := by
  have hlt : k < pk.objs.length := (List.getElem?_eq_some_iff.1 ho).1
  have hcount := h.linked.count
  obtain ⟨i, hi⟩ : ∃ i, (allocs ops)[k - 1]? = some i := ⟨_, List.getElem?_eq_getElem (by omega)⟩
  have hmem : Op.alloc i ∈ ops := by
    obtain ⟨op, hop, hv⟩ := List.mem_filterMap.1 (List.mem_of_getElem? hi)
    cases op with
    | set k j v => cases hv
    | alloc j =>
      cases hv
      exact hop
  obtain ⟨o', s, ho', hfs⟩ := h.allowed _ hmem
  rw [h.rep.record, Option.some.injEq] at ho'
  subst ho'
  have hs : P[i]? = some (.list s) := by
    simp only [fieldTypes_getElem?, Option.map_eq_some_iff] at hfs
    obtain ⟨ty, hty, hlist⟩ := hfs
    cases ty with
    | list s' =>
      cases hlist
      exact hty
    | _ => cases hlist
  have happ := mem_appended.2 ⟨hk, hi⟩
  exact ⟨i, s, hs, happ, h.linked.fields i s hfs k happ o ho⟩

theorem analysed_string {ty : RecordFieldType} (h : ty.analysed = .string) : ty = .string := by
  cases ty with
  | string => rfl
  | _ => cases h

/-- A packet of the kind is read as it was packed exactly if the charset has all its strings. -/
theorem Packs.agrees_iff (h : Packs C S P ops pk) (hread : Readable javac C S P) (hP : P ∈ S.packets) :
    Agrees javac S P ops pk ↔ ∀ (k j : ℕ) (v : Value), lastSet ops k j = some v → InCharset v := by
  obtain ⟨id, strs, hfilled⟩ := h.filled hread.first
  have hstrings : ∀ j, P[j]? = some .string → (lastSet ops 0 j).isSome := by
    intro j hj
    apply h.strings 0 j _ hfilled.rep.record
    rw [fieldTypes_getElem?, hj]
    rfl
  obtain ⟨values, hvalues, hfields, hheads⟩ := hfilled.reads hread hP hstrings
  constructor
  · rintro ⟨values', hvalues', hfields', hlists'⟩ k j v hv
    obtain rfl : values = values' := Option.some.inj (hvalues.symm.trans hvalues')
    cases v with
    | string s =>
      have hplain : ∀ s, RecordFieldType.string ≠ .list s := fun s hs => by cases hs
      obtain ⟨-, o, ho, hty⟩ := hfilled.allowed _ (lastSet_mem hv) s rfl
      rw [← packedValue_string hv]
      rcases Nat.eq_zero_or_pos k with rfl | hk
      · rw [hfilled.rep.record, Option.some.injEq] at ho
        subst ho
        simp only [fieldTypes_getElem?, Option.map_eq_some_iff] at hty
        obtain ⟨ty, hty, hstr⟩ := hty
        obtain rfl := analysed_string hstr
        obtain ⟨x, hx, his⟩ := hfields' j _ hty hplain
        rw [hfields j _ hty hplain, Option.some.injEq] at hx
        rw [← hx] at his
        exact (ofValue_is _).1 his
      · obtain ⟨i, st, hst, hmem, htypes⟩ := hfilled.appended hk ho
        obtain ⟨head, hhead, -, first, els, hnew, hyields, hall⟩ := hlists' i st hst
        obtain ⟨hsmall, first', els', hnew', hvisit', hall'⟩ := hfilled.elements hread h hst
        rw [hheads i st hst, Option.some.injEq, Member.int.injEq] at hhead
        rw [← hhead, toInt_offset hsmall] at hnew
        obtain rfl : first = first' := Option.some.inj (hnew.symm.trans hnew')
        obtain rfl : els = els' := (grows_visit _ _ first).unique hyields ⟨_, hvisit'⟩
        obtain ⟨el, hhas, hreads⟩ := forall₂_mem hall hall' hmem
        rw [htypes] at hty
        simp only [packStructs, fieldTypes_getElem?, Option.map_eq_some_iff] at hty
        obtain ⟨ty, hty, hstr⟩ := hty
        obtain rfl := analysed_string hstr
        exact hreads.has_iff.1 hhas j _ hty hplain
    | _ => trivial
  · intro hcharset
    refine ⟨values, hvalues, ?_, ?_⟩
    · intro j ty hty hlist
      exact ⟨_, hfields j ty hty hlist, (ofValue_is _).2 (inCharset_packed (hcharset 0 j) _)⟩
    · intro j s hs
      obtain ⟨hsmall, first, els, hnew, hvisit, hall⟩ := hfilled.elements hread h hs
      refine ⟨_, hheads j s hs, ?_, first, els, ?_, ⟨_, hvisit⟩, hall.imp ?_⟩
      · intro o ho
        rw [hfilled.rep.record, Option.some.injEq] at ho
        rw [← ho, BitVec.toNat_ofNat, Nat.mod_eq_of_lt (by omega)]
      · rw [toInt_offset hsmall]
        exact hnew
      · intro k el hreads
        exact hreads.has_iff.2 fun i ty _ _ => inCharset_packed (hcharset k i) _

end Classes

end Netp.Genf.Java
