import Netp.Broker.StashLines

/-! # The lines of a packet

The broker has the definition of a packet and gets one that was filled through the generated setters. Every
field holds what was last set in it (`heldIn`), and `stashStruct` makes a line of the packet, or one for
each element of its last list. `stash_reads_iff` says when these lines read back, for a packet whose record is
in the first block; `large_record_misread` is about one that is not.
-/

namespace Netp.Broker.Influx
open Netp.Lib Netp.Genf
set_option autoImplicit false

/-- The fields of object `k` with what was last set in them. -/
def heldIn (ops : List Op) (k : ℕ) (fields : List RecordFieldDef) : List Held :=
  fields.mapIdx fun j fd => ⟨fd, lastSet ops k j⟩

def fieldTypesOf (fields : List RecordFieldDef) : List FieldType := fields.map RecordFieldDef.type

/-- The list fields with their structs, the last one in front: that is the one that `hasList` keeps. -/
def listsOf (fields : List RecordFieldDef) : List (ℕ × ℕ) :=
  (fields.mapIdx fun j fd => (listStruct fd.type).map fun s => (j, s)).reverse.filterMap id

/-- The records for which there should be lines: every element of a list with the packet's fields in front, or
the packet if there is no list. -/
def packetRecords (structs : ℕ → List RecordFieldDef) (P : PacketDef) (ops : List Op) : List (List Held) :=
  match listsOf P.fields with
  | [] => [heldIn ops 0 P.fields]
  | lists => lists.flatMap fun l => (appended ops l.1).map fun k =>
      heldIn ops 0 P.fields ++ heldIn ops k (structs l.2)

/-! ## The description -/

section Description
variable {structs : ℕ → List RecordFieldDef} {rows : List (FieldRow × Option ℕ)} {fs : List Field}

theorem rebuilt_eq_leaves (h : Rebuilt structs rows fs) (hnone : ∀ f ∈ rows, f.2 = none) :
    fs = leaves (rows.map Prod.fst) := by
  induction h with
  | nil => rfl
  | field _ ih =>
    have hrest := ih fun f hf => hnone f (List.mem_cons_of_mem _ hf)
    rw [hrest]
    rfl
  | list _ _ _ _ => cases hnone _ List.mem_cons_self

/-- Where no struct of a list has a list, the fields are the tree. -/
theorem rebuilt_eq_tree (h : Rebuilt structs rows fs) (hflat : Flat structs rows) : fs = tree structs rows := by
  induction h with
  | nil => rfl
  | field _ ih =>
    have hrest := ih fun f hf => hflat f (List.mem_cons_of_mem _ hf)
    rw [hrest]
    rfl
  | list hsub _ _ ih =>
    have hrest := ih fun f hf => hflat f (List.mem_cons_of_mem _ hf)
    have hleaves := rebuilt_eq_leaves hsub (hflat _ List.mem_cons_self _ rfl)
    rw [hrest, hleaves]
    rfl

theorem map_mapIdx {α β γ : Type} (g : β → γ) (f : ℕ → α → β) (l : List α) :
    (l.mapIdx f).map g = l.mapIdx fun j x => g (f j x) := by
  rw [List.mapIdx_eq_zipIdx_map, List.mapIdx_eq_zipIdx_map, List.map_map]
  rfl

theorem forall₂_mapIdx {α β γ : Type} {R : β → γ → Prop} (l : List α) :
    ∀ {f : ℕ → α → β} {g : ℕ → α → γ}, (∀ j x, l[j]? = some x → R (f j x) (g j x)) →
      List.Forall₂ R (l.mapIdx f) (l.mapIdx g) := by
  induction l with
  | nil => exact fun _ => .nil
  | cons x l ih =>
    intro f g h
    rw [List.mapIdx_cons, List.mapIdx_cons]
    exact .cons (h 0 x rfl) (ih fun j y hj => h (j + 1) y hj)

theorem forall₂_find {α β : Type} {R : α → Option β → Prop} {p : α → Bool}
    (hp : ∀ a b, R a b → p a = b.isSome) {as : List α} {bs : List (Option β)} (h : List.Forall₂ R as bs) :
    (as.find? p = none ∧ bs.filterMap id = []) ∨
      ∃ a b rest, as.find? p = some a ∧ bs.filterMap id = b :: rest ∧ R a (some b) := by
  induction h with
  | nil => exact .inl ⟨rfl, rfl⟩
  | @cons a b as bs hab _ ih =>
    cases b with
    | none =>
      rw [List.find?_cons_of_neg (by rw [hp a none hab]; exact Bool.false_ne_true)]
      exact ih
    | some b =>
      rw [List.find?_cons_of_pos (by rw [hp a (some b) hab]; rfl)]
      exact .inr ⟨a, b, bs.filterMap id, rfl, rfl, hab⟩

/-- The row of field `j`. -/
def rowAt (structs : ℕ → List RecordFieldDef) (packet : Bool) (fields : List RecordFieldDef) (j : ℕ)
    (fd : RecordFieldDef) : FieldRow :=
  ⟨fd.id, fd.tag, fieldTypeCode fd.type, fieldSize structs fd.type, describedOffset packet fields j fd.type⟩

theorem tree_eq (packet : Bool) (fields : List RecordFieldDef) : tree structs (fieldRows structs packet fields) =
    fields.mapIdx fun j fd =>
      .mk (rowData (rowAt structs packet fields j fd)) (leaves (structRows structs (listStruct fd.type))) := by
  rw [tree, fieldRows, map_mapIdx]
  rfl

theorem leaves_eq (fields : List RecordFieldDef) : leaves ((fieldRows structs false fields).map Prod.fst) =
    fields.mapIdx fun j fd => .mk (rowData (rowAt structs false fields j fd)) [] := by
  rw [leaves, fieldRows, map_mapIdx, map_mapIdx]
  rfl

theorem hasList_eq {P : PacketDef} {s : Struct} (h : Rebuilds structs P s) :
    (s.hasList = none ∧ listsOf P.fields = []) ∨
      ∃ (f : Field) (j t : ℕ) (rest : List (ℕ × ℕ)), s.hasList = some f ∧ listsOf P.fields = (j, t) :: rest ∧
        (fieldTypesOf P.fields)[j]? = some (.list t) ∧
        f.data.offset = fieldOffset true (fieldTypesOf P.fields) j ∧
        f.listOf = leaves ((fieldRows structs false (structs t)).map Prod.fst) := by
  have htree := rebuilt_eq_tree h.fields h.shallow.flat
  rw [tree_eq] at htree
  -- what a field has to do with what `listsOf` looks at
  let R : Field → Option (ℕ × ℕ) → Prop := fun f b => f.isList = b.isSome ∧ ∀ j t, b = some (j, t) →
    (fieldTypesOf P.fields)[j]? = some (.list t) ∧
      f.data.offset = fieldOffset true (fieldTypesOf P.fields) j ∧
      f.listOf = leaves ((fieldRows structs false (structs t)).map Prod.fst)
  have hall : List.Forall₂ R s.fieldList
      (P.fields.mapIdx fun j fd => (listStruct fd.type).map fun t => (j, t)) := by
    rw [htree]
    refine forall₂_mapIdx P.fields fun j fd hj => ⟨?_, ?_⟩
    · have hcode : ∀ ty : FieldType, (fieldTypeCode ty : ℤ) = PacketFieldType.list.code ↔
          (listStruct ty).isSome = true := by
        intro ty
        cases ty <;> simp [fieldTypeCode, listStruct, PacketFieldType.code]
      rw [Option.isSome_map, Bool.eq_iff_iff, Field.isList, decide_eq_true_eq]
      exact hcode fd.type
    · intro j' t hsome
      have htypes : (fieldTypesOf P.fields)[j]? = some fd.type := by
        rw [fieldTypesOf, List.getElem?_map, hj, Option.map_some]
      cases hty : fd.type with
      | list u =>
        rw [hty] at hsome
        simp only [listStruct, Option.map_some, Option.some.injEq, Prod.mk.injEq] at hsome
        obtain ⟨rfl, rfl⟩ := hsome
        refine ⟨by rw [htypes, hty], ?_, rfl⟩
        simp only [Field.data, rowData, rowAt, hty, describedOffset]
        rfl
      | _ =>
        rw [hty] at hsome
        cases hsome
  rcases forall₂_find (fun f b hf => hf.1) (List.rel_reverse hall) with ⟨hnone, hnone'⟩ |
    ⟨f, b, rest, hf, hb, -, hR⟩
  · exact .inl ⟨hnone, hnone'⟩
  · exact .inr ⟨f, b.1, b.2, rest, hf, hb, hR b.1 b.2 rfl⟩

end Description

/-! ## The packet that was received -/

section Packer
variable {C k j : ℕ} {structs : ℕ → List FieldType} {pk pk' : Packer} {ops : List Op} {s : List UInt8}

theorem exec_noZero (h : exec C structs pk (.set k j (.string s)) = some pk') : 0 ∉ s := by
  obtain ⟨o, ty, -, -, ⟨src, r, dest, offset, -, hv, hzero, -⟩ | ⟨bs, hbs, -⟩⟩ := exec_set_cases h
  · cases hv
    exact hzero
  · cases ty <;> cases hbs

theorem execAll_noZero (hrun : execAll C structs pk ops = some pk') (h : .set k j (.string s) ∈ ops) : 0 ∉ s := by
  have hall : ∀ k j s, .set k j (.string s) ∈ ops → 0 ∉ s := by
    refine execAll_invariant (I := fun ops _ => ∀ k j s, .set k j (.string s) ∈ ops → 0 ∉ s) [] ?_
      (fun _ _ _ hmem => absurd hmem List.not_mem_nil) hrun
    intro ops pk op pk' hops he k j s hmem
    rcases List.mem_append.1 hmem with hmem | hmem
    · exact hops k j s hmem
    · rw [← List.mem_singleton.1 hmem] at he
      exact exec_noZero he
  exact hall k j s h

end Packer

theorem len_small {r : Rope} (h : r.length < 2 ^ 31) (b : ℕ) : r.len b < 2 ^ 31 := by
  unfold Rope.len
  cases hb : r.blocks[b]? with
  | none => simp
  | some t => exact (Netp.Genf.len_le_length r hb).trans_lt h

section Received
variable {id k : ℕ} {C : ℕ} {structs : ℕ → List RecordFieldDef} {P : List FieldType} {ops : List Op}
  {strs : List (Region ℕ)} {pk pk₀ : Packer} {r : Rope} {o : Obj} {fields : List RecordFieldDef}

theorem slot_received (hr : Received (id, pk.rope) r) (hid : id < 2 ^ 32) (hf : Framed id pk.rope)
    (h : Rep id P ops strs pk) (hu : Unset ops pk) (hsmall : pk.rope.length < 2 ^ 31)
    (hrun : execAll C (fun s => fieldTypesOf (structs s)) pk₀ ops = some pk) (ho : pk.objs[k]? = some o)
    {j : ℕ} {ty : FieldType} (hty : o.fields[j]? = some ty) (hlist : listStruct ty = none) :
    SlotIs r o.packet (o.slot j) ty (lastSet ops k j) := by
  have hnolist : ∀ s, ty ≠ .list s := by
    rintro s rfl
    cases hlist
  have hin := (h.objs_in k o ho).within (Obj.slot_within hty)
  cases hv : lastSet ops k j with
  | none => exact hr.unset hid hf h hu ho hty hnolist hv
  | some v =>
    have hholds := (h.vals k j o ty v ho hty hv).frame (hr.finds hid hf) (hr.sameAt hid hf hin)
      (fun g hg => hr.sameAt hid hf (h.strs_in g hg)) (List.Subset.refl _)
    refine ⟨⟨strs, hholds⟩, ?_⟩
    rintro s rfl
    refine ⟨execAll_noZero hrun (lastSet_mem hv), ?_⟩
    cases ty with
    | string =>
      obtain ⟨p, hp, hmem, -⟩ := hholds
      obtain ⟨hend, -, -⟩ := h.strs_in _ hmem
      have hlen := len_small hsmall p.1
      simp only at hend
      refine ⟨by omega, fun q hq => ?_⟩
      obtain rfl := Option.some.inj (hp.symm.trans hq)
      exact hr.inside hid hf (h.strs_in _ hmem)
    | _ =>
      obtain ⟨bs, hbs, -⟩ := hholds
      cases hbs

theorem record_received {packet : Bool} (hr : Received (id, pk.rope) r) (hid : id < 2 ^ 32)
    (hf : Framed id pk.rope) (h : Rep id P ops strs pk) (hu : Unset ops pk)
    (hsmall : pk.rope.length < 2 ^ 31)
    (hrun : execAll C (fun s => fieldTypesOf (structs s)) pk₀ ops = some pk) (ho : pk.objs[k]? = some o)
    (hpacket : o.packet = packet) (hfields : o.fields = fieldTypesOf fields)
    (sub : ℕ → RecordFieldDef → List Field) :
    List.Forall₂ (FieldAt r packet o.overlay)
      (fields.mapIdx fun j fd => .mk (rowData (rowAt structs packet fields j fd)) (sub j fd))
      (heldIn ops k fields) := by
  refine forall₂_mapIdx fields fun j fd hj => ?_
  have hty : o.fields[j]? = some fd.type := by
    rw [hfields, fieldTypesOf, List.getElem?_map, hj, Option.map_some]
  refine ⟨rfl, rfl, rfl, ?_, ?_⟩
  · intro n hn
    refine ⟨?_, ?_⟩
    · have hchar : fd.type = .char n := hn
      simp only [Field.data, rowData, rowAt, hchar, fieldSize]
    · obtain ⟨hend, -, -⟩ := (h.objs_in k o ho).within (Obj.slot_within hty)
      have hlen := len_small hsmall (o.slotRegion j fd.type).blk
      have hwidth : (o.slotRegion j fd.type).size = n := by
        have hchar : fd.type = .char n := hn
        rw [hchar]
        rfl
      omega
  · intro hlist
    refine ⟨fieldOffset packet (fieldTypesOf fields) j, ?_, ?_, ?_⟩
    · have hnone : listStruct fd.type = none := hlist
      simp only [Field.data, rowData, rowAt, fieldTypesOf]
      cases hfd : fd.type with
      | list s =>
        rw [hfd] at hnone
        cases hnone
      | _ => cases packet <;> rfl
    · have hslot := slot_received hr hid hf h hu hsmall hrun ho hty hlist
      rw [Obj.slot, hpacket, hfields] at hslot
      exact hslot
    · have hslot := hr.inside hid hf ((h.objs_in k o ho).within (Obj.slot_within hty))
      simp only [Obj.slotRegion, Obj.slot, hpacket, hfields] at hslot
      exact hslot

end Received

/-! ## Reading the lines of a packet -/

/-- A byte of a token `id`. -/
def isIdChar (c : UInt8) : Bool := c == 95 || (48 ≤ c && c ≤ 57) || (65 ≤ c && c ≤ 90) || (97 ≤ c && c ≤ 122)

/-- Fields have tokens `id` for names, and a packet what `makeLower` makes of one, with dashes. -/
structure Lexed (structs : ℕ → List RecordFieldDef) (P : PacketDef) : Prop where
  nonempty : P.lower.text ≠ []
  lower : ∀ c ∈ P.lower.text, isIdChar c = true ∨ c = 45
  fields : ∀ fd ∈ P.fields, ∀ c ∈ fd.id.text, isIdChar c = true
  structs : ∀ s, ∀ fd ∈ structs s, ∀ c ∈ fd.id.text, isIdChar c = true

/-- What is written of the packet reads back as the lines of these records. -/
def Unambiguous (r : Rope) (s : Struct) (name : List UInt8)
    (records : List (List Held)) : Prop :=
  ∃ text, Yields (fun n => stashStruct r n s []) text ∧ ReadsAs text (records.map (lineOf name))

theorem isName_of_id {name : List UInt8} (h : ∀ c ∈ name, isIdChar c = true ∨ c = 45) : IsName name := by
  intro c hc
  have hall : ∀ c : UInt8, isIdChar c = true ∨ c = 45 → c ≠ 92 ∧ isSeparator c = false ∧ c ≠ 61 := by
    intro c hid
    have hne : ∀ d : UInt8, isIdChar d = false → d ≠ 45 → c ≠ d := by
      rintro d hd h45 rfl
      rcases hid with hid | hid
      · rw [hd] at hid
        cases hid
      · exact h45 hid
    have h44 := hne 44 rfl (by decide)
    have h32 := hne 32 rfl (by decide)
    have h10 := hne 10 rfl (by decide)
    exact ⟨hne 92 rfl (by decide), by simp [isSeparator, h44, h32, h10], hne 61 rfl (by decide)⟩
  exact hall c (h c hc)

theorem heldIn_names {ops : List Op} {k : ℕ} {fields : List RecordFieldDef}
    (h : ∀ fd ∈ fields, ∀ c ∈ fd.id.text, isIdChar c = true) :
    ∀ held ∈ heldIn ops k fields, IsName held.field.id.text := by
  intro held hheld
  obtain ⟨j, hj, rfl⟩ := List.mem_mapIdx.1 hheld
  exact isName_of_id fun c hc => .inl (h _ (List.getElem_mem hj) c hc)

section Packet
variable {r : Rope} {head : Ptr} {s : Struct} {header : List Held}

theorem stashStruct_plain (hlist : s.hasList = none)
    (hheader : List.Forall₂ (FieldAt r true head) s.fieldList header)
    (hhead : (∃ h ∈ header, 0 < fieldWidth true h.field.type) → pktFind r headSize = some head) (out : List UInt8) :
    Yields (fun n => stashStruct r n s []) out ↔ AllSet header ∧ out = lineText s.name header := by
  have hgrows := grows_stashFieldList r
  have hline := takeAll_line [] s.name header
  rw [List.nil_append, List.nil_append] at hline
  simp only [stashStruct, hlist, List.nil_append,
    yields_bind (hgrows _ _ _ _) fun _ => (hgrows _ _ _ _).map _, yields_map,
    stashFieldList_yields hheader hhead]
  rw [allSet_iff, ← hline]
  constructor
  · rintro ⟨_, ⟨htags, rfl⟩, _, ⟨hfields, rfl⟩, rfl⟩
    exact ⟨⟨htags, hfields⟩, rfl⟩
  · rintro ⟨⟨htags, hfields⟩, rfl⟩
    exact ⟨_, ⟨htags, rfl⟩, _, ⟨hfields, rfl⟩, rfl⟩

theorem plain_reads (hlist : s.hasList = none)
    (hheader : List.Forall₂ (FieldAt r true head) s.fieldList header)
    (hhead : (∃ h ∈ header, 0 < fieldWidth true h.field.type) → pktFind r headSize = some head) (hname : IsName s.name) (hne : s.name ≠ [])
    (hnames : ∀ held ∈ header, IsName held.field.id.text) :
    Unambiguous r s s.name [header] ↔ AllSet header ∧ AllClear header := by
  have hread := lineText_reads (X := []) hname hne hnames ended_nil
  rw [List.append_nil, List.append_nil] at hread
  unfold Unambiguous
  simp only [stashStruct_plain hlist hheader hhead, List.map_singleton, ReadsAs, List.flatMap_singleton]
  constructor
  · rintro ⟨text, ⟨hset, rfl⟩, htext⟩
    exact ⟨hset, (hread.1 htext).1⟩
  · rintro ⟨hset, hclear⟩
    exact ⟨_, ⟨hset, rfl⟩, hread.2 ⟨hclear, rfl⟩⟩

theorem list_reads {f : Field} {objs : List Obj} {ks : List ℕ} {off : ℕ} {held : ℕ → List Held}
    {others : List (List Held)}
    (hlist : s.hasList = some f) (hheader : List.Forall₂ (FieldAt r true head) s.fieldList header)
    (hhead : pktFind r headSize = some head) (hoffset : f.data.offset = off)
    (hin : head.2 + off + 4 ≤ r.len head.1)
    (hleads : Leads r objs (r.u32 (head.1, head.2 + off)) ks)
    (helements : ∀ k ∈ ks, ∀ o, objs[k]? = some o → List.Forall₂ (FieldAt r false o.overlay) f.listOf (held k) ∧
      o.overlay.2 + 4 ≤ r.len o.overlay.1)
    (hname : IsName s.name) (hne : s.name ≠ []) (hnames : ∀ held ∈ header, IsName held.field.id.text)
    (hnames' : ∀ k, ∀ h ∈ held k, IsName h.field.id.text) :
    Unambiguous r s s.name ((ks.map fun k => header ++ held k) ++ others) ↔
      (∀ record ∈ ks.map fun k => header ++ held k, AllSet record ∧ AllClear record) ∧ others = [] := by
  have hstash : ∀ text, Yields (fun n => stashStruct r n s []) text ↔
      (∀ k ∈ ks, AllSet (header ++ held k)) ∧
        text = [] ++ ks.flatMap fun k => lineText s.name (header ++ held k) ++ [10] := by
    intro text
    have hitems := stashItems_yields [] text hheader hhead hleads helements
    have hload : loadAt r (pktFind r headSize) f.data.offset 4 = some (r.load (head.1, head.2 + off) 4) :=
      loadAt_eq (fun _ => hhead) hoffset fun _ => hin
    simp only [stashStruct, hlist, hload, Option.bind_some]
    exact hitems
  have hread := lines_read hname hne (ks.map fun k => header ++ held k) (by
    intro record hrecord h hh
    obtain ⟨k, -, rfl⟩ := List.mem_map.1 hrecord
    exact (List.mem_append.1 hh).elim (hnames h) (hnames' k h)) (others.map (lineOf s.name))
  rw [List.flatMap_map, List.map_eq_nil_iff] at hread
  unfold Unambiguous
  simp only [hstash, List.nil_append, List.map_append]
  constructor
  · rintro ⟨text, ⟨hset, rfl⟩, htext⟩
    obtain ⟨hclear, hothers⟩ := hread.1 htext
    refine ⟨fun record hrecord => ?_, hothers⟩
    have hclear := hclear record hrecord
    obtain ⟨k, hk, rfl⟩ := List.mem_map.1 hrecord
    exact ⟨hset k hk, hclear⟩
  · rintro ⟨hall, hothers⟩
    exact ⟨_, ⟨fun k hk => (hall _ (List.mem_map_of_mem hk)).1, rfl⟩,
      hread.2 ⟨fun record hrecord => (hall record hrecord).2, hothers⟩⟩

end Packet

/-- A packet that was filled and received, with the description that the broker has of it. -/
structure Delivered (C : ℕ) (structs : ℕ → List RecordFieldDef) (P : PacketDef) (s : Struct) (ops : List Op)
    (r : Rope) : Prop where
  description : Rebuilds structs P s
  names : Lexed structs P
  packet : ∃ mem pk pk', openPacker C mem P.ID.toNat (fieldTypesOf P.fields) = some pk ∧
    execAll C (fun s => fieldTypesOf (structs s)) pk ops = some pk' ∧ Received (P.ID.toNat, pk'.rope) r

/-- The record of the packet is in the first block, behind the headers. -/
def FirstBlock (C : ℕ) (P : PacketDef) : Prop := recordSize true (fieldTypesOf P.fields) + 16 ≤ C

instance (C : ℕ) (P : PacketDef) : Decidable (FirstBlock C P) := inferInstanceAs (Decidable (_ ≤ _))

/-- Every string for which there should be a line is set, and has nothing in it that the format takes for its
own; and only the last list has elements. -/
def Clean (structs : ℕ → List RecordFieldDef) (P : PacketDef) (ops : List Op) : Prop :=
  (∀ record ∈ packetRecords structs P ops, AllSet record ∧ AllClear record) ∧
    ∀ l ∈ (listsOf P.fields).tail, appended ops l.1 = []

instance (structs : ℕ → List RecordFieldDef) (P : PacketDef) (ops : List Op) : Decidable (Clean structs P ops) :=
  inferInstanceAs (Decidable (_ ∧ _))

section Delivered
variable {C : ℕ} {structs : ℕ → List RecordFieldDef} {P : PacketDef} {s : Struct} {ops : List Op} {r : Rope}

theorem Delivered.packer (h : Delivered C structs P s ops r) (hfirst : FirstBlock C P) : ∃ pk₀ pk strs,
    Rep P.ID.toNat (fieldTypesOf P.fields) ops strs pk ∧
      Linked (fun s => fieldTypesOf (structs s)) (fieldTypesOf P.fields) ops pk ∧ Unset ops pk ∧
      pk.rope.length < 2 ^ 31 ∧ execAll C (fun s => fieldTypesOf (structs s)) pk₀ ops = some pk ∧
      Received (P.ID.toNat, pk.rope) r := by
  obtain ⟨mem, pk₀, pk, hopen, hrun, hr⟩ := h.packet
  have hrep₀ := rep_open hfirst hopen
  obtain ⟨strs, hrep⟩ := rep_run hrep₀ hrun
  have hl₀ : Linked (fun s => fieldTypesOf (structs s)) (fieldTypesOf P.fields) [] pk₀ :=
    linked_open hfirst hopen
  have hl := hl₀.run hrep₀ hrun
  have hu := (unset_open hfirst hopen).run hrep₀ hrun
  rw [List.nil_append] at hrep hl hu
  exact ⟨pk₀, pk, strs, hrep, hl, hu, execAll_small (openPacker_small hopen) hrun, hrun, hr⟩

/-- Where the record is, unless it has no bytes. -/
theorem Delivered.header (h : Delivered C structs P s ops r) (hfirst : FirstBlock C P) :
    List.Forall₂ (FieldAt r true (0, 16)) s.fieldList (heldIn ops 0 P.fields) ∧
      (0 < recordSize true (fieldTypesOf P.fields) → pktFind r headSize = some (0, 16)) := by
  obtain ⟨pk₀, pk, strs, hrep, -, hu, hsmall, hrun, hr⟩ := h.packer hfirst
  have hf := hrep.framed hsmall
  have htree := rebuilt_eq_tree h.description.fields h.description.shallow.flat
  rw [tree_eq] at htree
  refine ⟨?_, fun hpos => hr.finds P.ID.isLt hf (pktFind_record hrep.first hpos)⟩
  rw [htree]
  exact record_received hr P.ID.isLt hf hrep hu hsmall hrun hrep.record rfl rfl _

theorem Delivered.list (h : Delivered C structs P s ops r) (hfirst : FirstBlock C P) {j t : ℕ}
    (hj : (fieldTypesOf P.fields)[j]? = some (.list t)) : ∃ objs : List Obj,
    16 + fieldOffset true (fieldTypesOf P.fields) j + 4 ≤ r.len 0 ∧
    Leads r objs (r.u32 (0, 16 + fieldOffset true (fieldTypesOf P.fields) j)) (appended ops j) ∧
      ∀ k ∈ appended ops j, ∀ o, objs[k]? = some o → List.Forall₂ (FieldAt r false o.overlay)
        (leaves ((fieldRows structs false (structs t)).map Prod.fst)) (heldIn ops k (structs t)) ∧
        o.overlay.2 + 4 ≤ r.len o.overlay.1 := by
  obtain ⟨pk₀, pk, strs, hrep, hl, hu, hsmall, hrun, hr⟩ := h.packer hfirst
  have hf := hrep.framed hsmall
  refine ⟨pk.objs, hr.inside P.ID.isLt hf ((hrep.objs_in 0 _ hrep.record).within (Obj.slot_within hj)),
    hr.leads P.ID.isLt hf hrep hl hj, ?_⟩
  intro k hk o ho
  have hpacket := hrep.appended_packet hk ho
  refine ⟨?_, hr.inside P.ID.isLt hf ((hrep.objs_in k o ho).within (Obj.next_within hpacket))⟩
  rw [leaves_eq]
  exact record_received hr P.ID.isLt hf hrep hu hsmall hrun ho hpacket (hl.fields j t hj k hk o ho) _

theorem recordSize_pos {fields : List RecordFieldDef}
    (h : ∃ held ∈ heldIn ops 0 fields, 0 < fieldWidth true held.field.type) :
    0 < recordSize true (fieldTypesOf fields) := by
  obtain ⟨held, hheld, hpos⟩ := h
  obtain ⟨j, hj, rfl⟩ := List.mem_mapIdx.1 hheld
  refine recordSize_pos_of_field (j := j) ?_ hpos
  rw [fieldTypesOf, List.getElem?_map, List.getElem?_eq_getElem hj, Option.map_some]

theorem Delivered.reads_iff (h : Delivered C structs P s ops r) (hfirst : FirstBlock C P) :
    Unambiguous r s P.lower.text (packetRecords structs P ops) ↔ Clean structs P ops := by
  obtain ⟨hheader, hfound⟩ := h.header hfirst
  have hname : IsName s.name := h.description.name ▸ isName_of_id h.names.lower
  have hne : s.name ≠ [] := h.description.name ▸ h.names.nonempty
  have hids : ∀ held ∈ heldIn ops 0 P.fields, IsName held.field.id.text := heldIn_names h.names.fields
  rw [← h.description.name]
  unfold Clean
  rcases hasList_eq h.description with ⟨hnone, hlists⟩ | ⟨f, j, t, rest, hsome, hlists, hj, hoffset, hsub⟩
  · have hrecords : packetRecords structs P ops = [heldIn ops 0 P.fields] := by rw [packetRecords, hlists]
    rw [hrecords, hlists, plain_reads hnone hheader (fun hwidth => hfound (recordSize_pos hwidth)) hname hne hids,
      List.forall_mem_singleton]
    simp
  · have hrecords : packetRecords structs P ops =
        ((appended ops j).map fun k => heldIn ops 0 P.fields ++ heldIn ops k (structs t)) ++
          rest.flatMap fun l => (appended ops l.1).map fun k =>
            heldIn ops 0 P.fields ++ heldIn ops k (structs l.2) := by
      rw [packetRecords, hlists]
      exact List.flatMap_cons
    obtain ⟨objs, hin, hleads, helements⟩ := h.list hfirst hj
    have hpos := recordSize_pos_of_field hj (by simp [fieldWidth])
    have hothers : (rest.flatMap fun l => (appended ops l.1).map fun k =>
        heldIn ops 0 P.fields ++ heldIn ops k (structs l.2)) = [] ↔ ∀ l ∈ rest, appended ops l.1 = [] := by
      simp only [List.flatMap_eq_nil_iff, List.map_eq_nil_iff]
    rw [hrecords, hlists, List.tail_cons, list_reads hsome hheader (hfound hpos) hoffset hin hleads
      (hsub ▸ helements) hname hne hids fun k => heldIn_names (h.names.structs t), ← hothers]
    refine and_congr_left fun hnil => ?_
    rw [hnil, List.append_nil]

end Delivered

/-- The lines of a packet whose record is in the first block read back exactly if every string in them is set,
and has nothing in it that the format takes for its own, and no list but the last has elements. -/
theorem stash_reads_iff {C : ℕ} {structs : ℕ → List RecordFieldDef} {P : PacketDef} {s : Struct}
    {ops : List Op} {r : Rope} (h : Delivered C structs P s ops r) :
    (FirstBlock C P ∧ Clean structs P ops → Unambiguous r s P.lower.text (packetRecords structs P ops)) ∧
      (Unambiguous r s P.lower.text (packetRecords structs P ops) → FirstBlock C P → Clean structs P ops) :=
  ⟨fun hgood => (h.reads_iff hgood.1).2 hgood.2, fun hread hfirst => (h.reads_iff hfirst).1 hread⟩

/-- The definition. -/
def treeOf (structs : ℕ → List RecordFieldDef) (P : PacketDef) : Struct :=
  ⟨P.lower.text, P.ID.toInt, tree structs (fieldRows structs true P.fields)⟩

theorem rebuilds_treeOf {structs : ℕ → List RecordFieldDef} {P : PacketDef} (hshallow : Shallow structs P) :
    Rebuilds structs P (treeOf structs P) :=
  ⟨rfl, rfl, rebuilt_tree hshallow.flat, laid_tree hshallow.flat⟩

/-- A packet that was filled can be received by a broker that has its definition. -/
theorem exists_delivered {C : ℕ} {structs : ℕ → List RecordFieldDef} {P : PacketDef} {ops : List Op}
    {mem : Mem ℕ} {pk pk' : Packer} (hshallow : Shallow structs P) (hlex : Lexed structs P)
    (hfirst : FirstBlock C P) (hopen : openPacker C mem P.ID.toNat (fieldTypesOf P.fields) = some pk)
    (hrun : execAll C (fun s => fieldTypesOf (structs s)) pk ops = some pk') :
    ∃ s r, Delivered C structs P s ops r := by
  obtain ⟨strs, hrep⟩ := rep_run (rep_open hfirst hopen) hrun
  have hframed := hrep.framed (execAll_small (openPacker_small hopen) hrun)
  obtain ⟨r, hr⟩ := exists_received (p := (P.ID.toNat, pk'.rope)) P.ID.isLt hframed
  exact ⟨treeOf structs P, r, rebuilds_treeOf hshallow, hlex, mem, pk, pk', hopen, hrun, hr⟩

/-- A quote in the tag, and a comma in a string that is no tag. -/
def pairOps : List Op :=
  [.set 0 0 (.string [118, 34]), .alloc 1, .set 1 0 (.char [97, 44]), .set 0 2 (.int 3)]

theorem stash_reads_pairs : ∃ s r, Delivered 4096 samplePairs samplePacket s pairOps r ∧
    Unambiguous r s samplePacket.lower.text (packetRecords samplePairs samplePacket pairOps) := by
  obtain ⟨pk, pk', hopen, hrun⟩ : ∃ pk pk',
      openPacker 4096 (fun _ _ => 0) samplePacket.ID.toNat (fieldTypesOf samplePacket.fields) = some pk ∧
        execAll 4096 (fun s => fieldTypesOf (samplePairs s)) pk pairOps = some pk' := ⟨_, _, rfl, rfl⟩
  have hshallow : Shallow samplePairs samplePacket := by
    intro fd _ s _ e he t
    simp only [samplePairs, List.mem_cons, List.not_mem_nil, or_false] at he
    rcases he with rfl | rfl <;> exact FieldType.noConfusion
  have hids : (∀ c ∈ samplePacket.lower.text, isIdChar c = true ∨ c = 45) ∧
      (∀ fd ∈ samplePacket.fields, ∀ c ∈ fd.id.text, isIdChar c = true) ∧
      ∀ fd ∈ samplePairs 0, ∀ c ∈ fd.id.text, isIdChar c = true := by decide +kernel
  have hlex : Lexed samplePairs samplePacket := ⟨by decide, hids.1, hids.2.1, fun _ => hids.2.2⟩
  obtain ⟨s, r, h⟩ := exists_delivered hshallow hlex (by decide) hopen hrun
  exact ⟨s, r, h, (stash_reads_iff h).1 ⟨by decide, by decide⟩⟩

/-- A packet of one tag. -/
def tagPacket : PacketDef := ⟨⟨[116], by decide⟩, 7, [⟨true, .string, ⟨[103], by decide⟩⟩]⟩

theorem comma_not_unambiguous : ¬ ∀ (C : ℕ) (structs : ℕ → List RecordFieldDef) (P : PacketDef) (s : Struct)
    (ops : List Op) (r : Rope), Delivered C structs P s ops r →
    Unambiguous r s P.lower.text (packetRecords structs P ops) := by
  intro hall
  obtain ⟨pk, pk', hopen, hrun⟩ : ∃ pk pk',
      openPacker 4096 (fun _ _ => 0) tagPacket.ID.toNat (fieldTypesOf tagPacket.fields) = some pk ∧
        execAll 4096 (fun _ => fieldTypesOf []) pk [.set 0 0 (.string (bytes "x,y"))] = some pk' :=
    ⟨_, _, rfl, rfl⟩
  have hshallow : Shallow (fun _ => []) tagPacket := fun _ _ _ _ e he => absurd he List.not_mem_nil
  have hids : (∀ c ∈ tagPacket.lower.text, isIdChar c = true ∨ c = 45) ∧
      ∀ fd ∈ tagPacket.fields, ∀ c ∈ fd.id.text, isIdChar c = true := by decide +kernel
  have hlex : Lexed (fun _ => []) tagPacket :=
    ⟨by decide, hids.1, hids.2, fun _ fd hfd => absurd hfd List.not_mem_nil⟩
  obtain ⟨s, r, h⟩ := exists_delivered hshallow hlex (by decide) hopen hrun
  exact absurd ((h.reads_iff (by decide)).1 (hall 4096 (fun _ => []) tagPacket s _ r h)) (by decide)

/-! ## A record in the second block -/

/-- A tag and a text that is longer than a block. -/
def largePacket (C : ℕ) : PacketDef :=
  ⟨⟨[116], by decide⟩, 7, [⟨true, .bool, ⟨[103], by decide⟩⟩, ⟨false, .char C, ⟨[101], by decide⟩⟩]⟩

section Large
variable {C : ℕ}

/-- The rope of the packet with its tag set has the headers in the first block. -/
theorem largePacket_received (hC : 16 ≤ C) (hsize : C + 64 ≤ 2 ^ 31) (mem : Mem ℕ) :
    ∃ (pk pk' : Packer) (r : Rope),
      openPacker C mem (largePacket C).ID.toNat (fieldTypesOf (largePacket C).fields) = some pk ∧
      execAll C (fun _ => []) pk [.set 0 0 (.bool true)] = some pk' ∧
      Received ((largePacket C).ID.toNat, pk'.rope) r ∧
      pktFind r headSize = some (1, 0) ∧ r.load (1, 0) 4 = le 4 0 ∧ r.len 1 = 5 + C := by
  have hrecord : recordSize true (fieldTypesOf (largePacket C).fields) = 1 + C := by
    simp [largePacket, fieldTypesOf, recordSize, fieldOffset, fieldWidth]
  obtain ⟨rope, hbase, hblocks⟩ : ∃ rope, packetBaseOpen C mem 7 (1 + C) = some (rope, (1, 4)) ∧
      rope.blocks = [⟨C, 16⟩, ⟨max (4 + (1 + C)) C, 4 + (1 + C)⟩] := by
    rw [packetBaseOpen_second hC (by omega), if_pos (by omega)]
    exact ⟨_, rfl, rfl⟩
  have hopen : openPacker C mem (largePacket C).ID.toNat (fieldTypesOf (largePacket C).fields) =
      some ⟨rope, [⟨true, 0, (1, 4), fieldTypesOf (largePacket C).fields⟩], fun _ => (0, 0)⟩ := by
    unfold openPacker
    rw [hrecord]
    exact congrArg (Option.bind · _) hbase
  have hframed : Framed 7 (rope.store (1, 4) [1]) := (framed_open hbase).store (.inl Nat.zero_ne_one)
  obtain ⟨r, hr⟩ := exists_received (p := (7, rope.store (1, 4) [1])) (by simp) hframed
  have hcontents := hr.contents (by simp) hframed
  have hlen : rope.len 1 = 5 + C := by
    simp only [Rope.len, hblocks, List.getElem?_cons_succ, List.getElem?_cons_zero, Option.map_some,
      Option.getD_some]
    omega
  have hsecond : SecondBlock (rope.store (1, 4) [1]) :=
    SecondBlock.store ⟨by simp [Rope.len, hblocks], by simp [hblocks], by omega⟩ _ _
  have hthird : (rope.store (1, 4) [1]).len 2 = 0 := by simp [Rope.len, Rope.store, hblocks]
  have hnext := hsecond.nextLen
  rw [hthird] at hnext
  refine ⟨_, _, r, hopen, rfl, hr, ?_, ?_, ?_⟩
  · rw [pktFind_of_contents hcontents, pktFind_send]
    exact hsecond.pktFind
  · have hin : 0 + 4 ≤ rope.len 1 := by omega
    rw [load_of_contents hcontents hin, hnext]
  · rw [len_of_contents hcontents]
    exact hlen

/-- What the broker finds there: no tag, and a text that begins with a zero. -/
def misread (C : ℕ) (r : Rope) : List Held :=
  [⟨⟨true, .bool, ⟨[103], by decide⟩⟩, some (.bool false)⟩,
    ⟨⟨false, .char C, ⟨[101], by decide⟩⟩, some (.char (r.load (1, 1) C))⟩]

theorem misread_text {r : Rope} (hC : 16 ≤ C) (hzero : r.load (1, 0) 4 = le 4 0) :
    cstr ((r.load (1, 1) C).take C) = [] := by
  obtain ⟨n, rfl⟩ : ∃ n, C = n + 1 := ⟨C - 1, by omega⟩
  have hbyte : r.mem 1 1 = 0 := by
    have hsecond := congrArg (fun bs : List UInt8 => bs[1]?) hzero
    rw [Rope.load, Mem.load_getElem? _ _ _ _ _ (by decide)] at hsecond
    exact Option.some.inj hsecond
  rw [List.take_of_length_le (by rw [Rope.load, Mem.load_length]), Rope.load, Nat.add_comm n 1, Mem.load_add,
    show r.mem.load 1 1 1 = [0] from congrArg (fun b => [b]) hbyte]
  rfl

theorem largePacket_misread {r : Rope} (hsize : C + 64 ≤ 2 ^ 31) (hzero : r.load (1, 0) 4 = le 4 0)
    (hlen : r.len 1 = 5 + C) :
    List.Forall₂ (FieldAt r true (1, 0)) (treeOf (fun _ => []) (largePacket C)).fieldList (misread C r) := by
  have hfirst : r.load (1, 0) 1 = [0] := by
    have htake := Mem.load_take r.mem 1 0 (by omega : 1 ≤ 4)
    have hload : r.mem.load 1 0 4 = le 4 0 := hzero
    rw [hload] at htake
    exact htake.symm
  have htext : inPlace true (.char C) (.char (r.load (1, 1) C)) = some (r.load (1, 1) C) := by
    simp [inPlace, Rope.load]
  refine .cons ⟨rfl, rfl, rfl, fun n hn => (by cases hn), fun _ => ⟨0, rfl, ⟨⟨[], [0], rfl, hfirst⟩, ?_⟩, ?_⟩⟩
    (.cons ⟨rfl, rfl, rfl, ?_, fun _ => ⟨1, rfl, ⟨⟨[], _, htext, rfl⟩, ?_⟩, ?_⟩⟩ .nil)
  · rintro s ⟨⟩
  · simp only [fieldWidth, hlen]
    omega
  · rintro n hn
    cases hn
    exact ⟨rfl, by omega⟩
  · rintro s ⟨⟩
  · simp only [fieldWidth, hlen]
    omega

/-- The packet's tag is set, but the broker takes the head of the second block for the record. -/
theorem large_record_misread (hC : 16 ≤ C) (hsize : C + 64 ≤ 2 ^ 31) :
    ∃ s r, Delivered C (fun _ => []) (largePacket C) s [.set 0 0 (.bool true)] r ∧
      Clean (fun _ => []) (largePacket C) [.set 0 0 (.bool true)] ∧
      ¬ Unambiguous r s (largePacket C).lower.text
        (packetRecords (fun _ => []) (largePacket C) [.set 0 0 (.bool true)]) := by
  obtain ⟨pk, pk', r, hopen, hrun, hr, hfound, hzero, hlen⟩ := largePacket_received hC hsize fun _ _ => 0
  have hshallow : Shallow (fun _ => []) (largePacket C) := fun _ _ _ _ e he => absurd he List.not_mem_nil
  have hid : ∀ c : UInt8, c = 103 ∨ c = 116 ∨ c = 101 → isIdChar c = true := by
    rintro c (rfl | rfl | rfl) <;> rfl
  have hlower : (largePacket C).lower.text = [116] := rfl
  have hname : IsName (largePacket C).lower.text := isName_of_id fun c hc => .inl (hid c (by simp_all))
  have hfields : ∀ fd ∈ (largePacket C).fields, ∀ c ∈ fd.id.text, isIdChar c = true := by
    intro fd hfd c hc
    simp only [largePacket, List.mem_cons, List.not_mem_nil, or_false] at hfd
    rcases hfd with rfl | rfl
    · exact hid c (.inl (List.mem_singleton.1 hc))
    · exact hid c (.inr (.inr (List.mem_singleton.1 hc)))
  have hlex : Lexed (fun _ => []) (largePacket C) :=
    ⟨List.cons_ne_nil _ _, fun c hc => .inl (hid c (.inr (.inl (List.mem_singleton.1 hc)))), hfields,
      fun _ fd hfd => absurd hfd List.not_mem_nil⟩
  refine ⟨treeOf (fun _ => []) (largePacket C), r, ⟨rebuilds_treeOf hshallow, hlex, _, pk, pk', hopen, hrun, hr⟩,
    ?_, ?_⟩
  · have hrecords : packetRecords (fun _ => []) (largePacket C) [.set 0 0 (.bool true)] =
        [[⟨⟨true, .bool, ⟨[103], by decide⟩⟩, some (.bool true)⟩,
          ⟨⟨false, .char C, ⟨[101], by decide⟩⟩, none⟩]] := rfl
    refine ⟨?_, fun l hl => absurd hl List.not_mem_nil⟩
    rw [hrecords, List.forall_mem_singleton]
    simp [AllSet, AllClear, Held.IsSet, Held.Clear, Held.datum, datumOf, zeroValue, cstr]
  · rintro ⟨text, htext, hreads⟩
    have hnames : ∀ held ∈ misread C r, IsName held.field.id.text := by
      intro held hheld
      simp only [misread, List.mem_cons, List.not_mem_nil, or_false] at hheld
      rcases hheld with rfl | rfl
      · exact isName_of_id fun c hc => .inl (hid c (.inl (List.mem_singleton.1 hc)))
      · exact isName_of_id fun c hc => .inl (hid c (.inr (.inr (List.mem_singleton.1 hc))))
    have hset : AllSet (misread C r) := by simp [AllSet, Held.IsSet, misread]
    have hclear : AllClear (misread C r) := by
      simp [AllClear, Held.Clear, Held.datum, datumOf, misread, misread_text hC hzero]
    obtain ⟨text', htext', hreads'⟩ := (plain_reads rfl (largePacket_misread hsize hzero hlen)
      (fun _ => hfound) hname hlex.nonempty hnames).2 ⟨hset, hclear⟩
    obtain rfl := (grows_stashStruct _ []).unique htext htext'
    -- the tag is `f` in one line and `t` in the other
    have hlines := Line.tokens_injective (Option.some.inj (hreads.symm.trans hreads'))
    have htags := congrArg (fun lines => lines.map Line.tags) hlines
    have hne : bytes "t" ≠ bytes "f" := by decide
    simp [packetRecords, listsOf, largePacket, heldIn, lineOf, written, listStruct, misread, textOf, Held.datum,
      datumOf, lastSet, hne] at htags

end Large

end Netp.Broker.Influx
