import Netp.Broker.ReadReturns
import Netp.Genf.ParseDelivers

/-! # What the broker makes of a description

Reading rows one after the other gives back every tree whose counts are right (`readStruct_flatten`). The
generated `describe` sends the rows of such a tree as long as the structs of its lists have no lists
themselves, and then the broker has the definition (`describe_rebuilds_iff`).
-/

namespace Netp.Broker.Influx
open Netp.Lib Netp.Genf
set_option autoImplicit false

/-! ## Trees and rows -/

/-- The fields of a tree, each before those of its struct. -/
def flatten : List Field → List FieldData
  | [] => []
  | .mk data listOf :: fs => data :: (flatten listOf ++ flatten fs)

/-- The size of a list field is the number of its struct's fields. -/
inductive Sized : List Field → Prop
  | nil : Sized []
  | field {data : FieldData} {fs : List Field} (htype : data.type ≠ PacketFieldType.list.code)
      (h : Sized fs) : Sized (.mk data [] :: fs)
  | list {data : FieldData} {sub fs : List Field} (htype : data.type = PacketFieldType.list.code)
      (hsize : data.size = sub.length) (hsub : Sized sub) (h : Sized fs) : Sized (.mk data sub :: fs)

/-- What is read of a row: the numbers go through an `int`. -/
def readRow (row : FieldRow) : FieldData :=
  ⟨row.id.text, row.tag, intOf row.type, intOf row.size, intOf row.offset⟩

/-- What the row says. -/
def rowData (row : FieldRow) : FieldData := ⟨row.id.text, row.tag, row.type, row.size, row.offset⟩

section Read
variable {r : Rope} {overlay p : Ptr} {off : ℕ} {it : StructRecord} {row : FieldRow} {rows : List FieldRow}

theorem intOf_mod (n : ℕ) : intOf (n % 2 ^ 32) = intOf n := by
  unfold intOf
  congr 1
  apply BitVec.eq_of_toNat_eq
  simp

theorem strlen_of_load {text : List UInt8} (hzero : 0 ∉ text)
    (h : r.load p (text.length + 1) = text ++ [0]) (hin : p.2 + (text.length + 1) ≤ r.len p.1) :
    strlen r (text.length + 1) p = some text.length := by
  have hlt : p.2 < r.len p.1 := by omega
  induction text generalizing p with
  | nil =>
    have h0 : r.mem p.1 p.2 = 0 := load_singleton h
    simp only [List.length_nil, strlen, if_pos hlt, if_pos h0]
  | cons c text ih =>
    have hsplit : r.load p (text.length + 1 + 1) = r.load p 1 ++ r.load (p.1, p.2 + 1) (text.length + 1) := by
      rw [Nat.add_comm (text.length + 1) 1]
      exact Mem.load_add r.mem p.1 p.2 1 (text.length + 1)
    rw [List.length_cons, hsplit, List.cons_append, ← List.singleton_append] at h
    obtain ⟨hc, htext⟩ := List.append_inj h (by simp [Rope.load])
    have hbyte : r.mem p.1 p.2 = c := load_singleton hc
    have hne : c ≠ 0 := fun h0 => hzero (h0 ▸ List.mem_cons_self)
    rw [List.length_cons] at hin
    have hrest := ih (p := (p.1, p.2 + 1)) (fun h0 => hzero (List.mem_cons_of_mem c h0)) htext
      (by simp only; omega) (by simp only; omega)
    rw [List.length_cons, strlen, if_pos hlt, hbyte, if_neg hne, hrest]
    rfl

theorem cString_of_spells {text : List UInt8} (hzero : 0 ∉ text) (h : Spells r off text p) :
    Yields (fun n => cString r n p) text := by
  refine ⟨text.length + 1, ?_⟩
  simp only [cString, strlen_of_load hzero h.bytes h.inside, Option.map_some, Option.some.injEq]
  have htake := Mem.load_take r.mem p.1 p.2 (Nat.le_succ text.length)
  have hload : r.mem.load p.1 p.2 (text.length + 1) = text ++ [0] := h.bytes
  rw [Nat.succ_eq_add_one, hload, List.take_left' rfl] at htake
  exact htake.symm

theorem collect_row (hat : At r off it) (ho : RecordAt r off overlay) (hoff : off ≠ 0)
    (hrow : RowAt r overlay row) : Yields (fun n => collect r n it) (readRow row) := by
  obtain ⟨p, hp⟩ := hrow.name
  simp only [hat.collect_eq ho hoff, hp.found, Option.bind_some]
  refine yields_map.2 ⟨row.id.text, cString_of_spells row.id.noZero hp, ?_⟩
  simp only [fieldData, readRow, hrow.tag, hrow.type, hrow.size, hrow.offset, intOf_mod]

/-- **Reading gives the tree.** Where the links lead through the fields of a tree in which every list has
the right size, `readStruct` reads that tree, and leaves what follows. -/
theorem readStruct_flatten {fs : List Field} (hsized : Sized fs) {rest : List FieldRow}
    (hrows : rows.map readRow = flatten fs) (h : Lists r off (rows ++ rest)) (hat : At r off it) :
    ∃ it' off', Yields (fun n => readStruct r n fs.length it) (fs, it') ∧ At r off' it' ∧
      Lists r off' rest := by
  induction hsized generalizing rows rest off it with
  | nil =>
    rw [flatten, List.map_eq_nil_iff] at hrows
    subst hrows
    exact ⟨it, off, ⟨1, readStruct_stops (by simp) 0⟩, hat, h⟩
  | @field data fs htype _ ih =>
    simp only [flatten, List.nil_append] at hrows
    obtain ⟨row, rows', rfl, hdata, hrows'⟩ := List.map_eq_cons_iff.1 hrows
    rw [List.cons_append] at h
    obtain ⟨hoff, overlay, hp, hrow, hrest⟩ := h
    have ho : RecordAt r off overlay := ⟨hp, hrow.inside⟩
    obtain ⟨it1, hadv, hat1⟩ := exists_at hrest.found it
    rw [← hat.advance_eq ho hoff] at hadv
    obtain ⟨it', off', hread, hat', hrest'⟩ := ih hrows' hrest hat1
    refine ⟨it', off', ?_, hat', hrest'⟩
    have hturn : 0 < ((Field.mk data [] :: fs).length : ℤ) ∧ it.valid = true := by
      refine ⟨?_, hat.valid_iff.2 hoff⟩
      rw [List.length_cons]
      omega
    have hcollect := collect_row hat ho hoff hrow
    rw [hdata] at hcollect
    refine (readStruct_yields hturn).2 ⟨data, hcollect, it1, hadv, ([], it1), ?_, (fs, it'), ?_, rfl⟩
    · simp only [if_neg htype, yields_const]
    · rw [List.length_cons, Nat.cast_succ, Int.add_sub_cancel]
      exact hread
  | @list data sub fs htype hsize _ _ ihsub ih =>
    rw [flatten] at hrows
    obtain ⟨row, rows', rfl, hdata, hrows'⟩ := List.map_eq_cons_iff.1 hrows
    obtain ⟨rows1, rows2, rfl, hrows1, hrows2⟩ := List.map_eq_append_iff.1 hrows'
    rw [List.cons_append, List.append_assoc] at h
    obtain ⟨hoff, overlay, hp, hrow, hrest⟩ := h
    have ho : RecordAt r off overlay := ⟨hp, hrow.inside⟩
    obtain ⟨it1, hadv, hat1⟩ := exists_at hrest.found it
    rw [← hat.advance_eq ho hoff] at hadv
    obtain ⟨it2, off2, hread1, hat2, hrest2⟩ := ihsub hrows1 hrest hat1
    obtain ⟨it', off', hread2, hat', hrest'⟩ := ih hrows2 hrest2 hat2
    refine ⟨it', off', ?_, hat', hrest'⟩
    have hturn : 0 < ((Field.mk data sub :: fs).length : ℤ) ∧ it.valid = true := by
      refine ⟨?_, hat.valid_iff.2 hoff⟩
      rw [List.length_cons]
      omega
    have hcollect := collect_row hat ho hoff hrow
    rw [hdata] at hcollect
    refine (readStruct_yields hturn).2 ⟨data, hcollect, it1, hadv, (sub, it2), ?_, (fs, it'), ?_, rfl⟩
    · simp only [if_pos htype, hsize]
      exact hread1
    · rw [List.length_cons, Nat.cast_succ, Int.add_sub_cancel]
      exact hread2

end Read

/-! ## Having the definition -/

/-- The bytes in which a field is stored. -/
def storedSize (data : FieldData) : ℤ :=
  match PacketFieldType.ofCode data.type with
  | some .bool => 1
  | some .int => 4
  | some .unsignedInt => 4
  | some .long => 8
  | some .unsignedLong => 8
  -- an offset
  | some .string => 4
  | some .char => data.size
  | some .list => 4
  | none => 0

/-- Two stretches of a record, by offset and size, do not overlap. -/
def Apart (a b : ℤ × ℤ) : Prop := a.1 + a.2 ≤ b.1 ∨ b.1 + b.2 ≤ a.1

/-- Where the fields of a packet (`true`) or struct are. A struct begins with its next link. -/
def extents (packet : Bool) (fs : List Field) : List (ℤ × ℤ) :=
  (if packet then [] else [(0, 4)]) ++ fs.map fun f => (f.data.offset, storedSize f.data)

/-- Nothing overlaps, at any level. -/
inductive Laid : Bool → List Field → Prop
  | mk {packet : Bool} {fs : List Field} (hapart : (extents packet fs).Pairwise Apart)
      (hsub : ∀ f ∈ fs, f.isList = true → Laid false f.listOf) : Laid packet fs

section Definition
variable (structs : ℕ → List RecordFieldDef)

/-- The fields are those of the rows, and a list field has exactly the fields of its struct. -/
inductive Rebuilt : List (FieldRow × Option ℕ) → List Field → Prop
  | nil : Rebuilt [] []
  | field {row : FieldRow} {rows : List (FieldRow × Option ℕ)} {fs : List Field} (h : Rebuilt rows fs) :
      Rebuilt ((row, none) :: rows) (.mk (rowData row) [] :: fs)
  | list {row : FieldRow} {s : ℕ} {rows : List (FieldRow × Option ℕ)} {sub fs : List Field}
      (hsub : Rebuilt (fieldRows structs false (structs s)) sub) (h : Rebuilt rows fs) :
      Rebuilt ((row, some s) :: rows) (.mk (rowData row) sub :: fs)

/-- The description is the definition. -/
structure Rebuilds (P : PacketDef) (s : Struct) : Prop where
  name : s.name = P.lower.text
  ID : s.ID = P.ID.toInt
  fields : Rebuilt structs (fieldRows structs true P.fields) s.fieldList
  laid : Laid true s.fieldList

/-- No struct of which the packet has a list has a list itself. -/
def Shallow (P : PacketDef) : Prop :=
  ∀ fd ∈ P.fields, ∀ s, fd.type = .list s → ∀ e ∈ structs s, ∀ t, e.type ≠ .list t

/-- The numbers that `describe` passes are numbers of an `int`. -/
def FitsInt (P : PacketDef) : Prop :=
  P.fields.length < 2 ^ 31 ∧ ∀ row ∈ describedRows structs P, row.size < 2 ^ 31 ∧ row.offset < 2 ^ 31

end Definition

/-! ### What the numbers read can be -/

section Small
variable {r : Rope} {n : ℕ} {it : StructRecord}

theorem collect_small {data : FieldData} (h : collect r n it = some data) :
    data.size < 2 ^ 31 ∧ data.offset < 2 ^ 31 := by
  have hlt : ∀ v : BitVec 32, v.toInt < 2 ^ 31 := by
    intro v
    have := BitVec.toInt_lt (x := v)
    omega
  unfold collect at h
  split at h
  · obtain ⟨name, -, rfl⟩ := Option.map_eq_some_iff.1 h
    exact ⟨hlt _, hlt _⟩
  · cases h

theorem readStruct_small {numFields : ℤ} {x : List Field × StructRecord}
    (h : readStruct r n numFields it = some x) :
    x.1.length ≤ numFields.toNat ∧ ∀ d ∈ flatten x.1, d.size < 2 ^ 31 ∧ d.offset < 2 ^ 31 := by
  induction n generalizing numFields it x with
  | zero => cases h
  | succ n ih =>
    by_cases hturn : 0 < numFields ∧ it.valid = true
    · simp only [readStruct, if_pos hturn, Option.bind_eq_some_iff, Option.map_eq_some_iff] at h
      obtain ⟨data, hdata, it', -, sub, hsub, rest, hrest, rfl⟩ := h
      obtain ⟨hlen, hsmall⟩ := ih hrest
      have hsubsmall : ∀ d ∈ flatten sub.1, d.size < 2 ^ 31 ∧ d.offset < 2 ^ 31 := by
        split at hsub
        · exact (ih hsub).2
        · obtain rfl := Option.some.inj hsub
          simp [flatten]
      refine ⟨?_, fun d hd => ?_⟩
      · rw [List.length_cons]
        omega
      · rw [flatten, List.mem_cons, List.mem_append] at hd
        rcases hd with rfl | hd | hd
        · exact collect_small hdata
        · exact hsubsmall d hd
        · exact hsmall d hd
    · rw [readStruct_stops hturn, Option.some.injEq] at h
      subst h
      exact ⟨Nat.zero_le _, by simp [flatten]⟩

end Small

/-! ### The rows of a definition -/

section Rows
variable {structs : ℕ → List RecordFieldDef} {P : PacketDef} {packet : Bool} {fields : List RecordFieldDef}
  {f : FieldRow × Option ℕ} {fs : List Field} {rows : List (FieldRow × Option ℕ)}

theorem mem_fieldRows (h : f ∈ fieldRows structs packet fields) : ∃ fd ∈ fields,
    f.1.type = fieldTypeCode fd.type ∧ f.1.size = fieldSize structs fd.type ∧ f.2 = listStruct fd.type := by
  obtain ⟨j, hj, rfl⟩ := List.mem_mapIdx.1 h
  exact ⟨fields[j], List.getElem_mem hj, rfl, rfl, rfl⟩

theorem fieldRow_list (h : f ∈ fieldRows structs packet fields) :
    f.2 = none ∧ f.1.type ≠ 8 ∨ ∃ s, f.2 = some s ∧ f.1.type = 8 ∧ f.1.size = (structs s).length := by
  obtain ⟨fd, -, htype, hsize, hstruct⟩ := mem_fieldRows h
  rw [htype, hsize, hstruct]
  cases fd.type with
  | list s => exact .inr ⟨s, rfl, rfl, rfl⟩
  | _ => exact .inl ⟨rfl, by simp [fieldTypeCode]⟩

/-- Every row is read somewhere, those of a list's struct in the list. -/
theorem Rebuilt.mem (h : Rebuilt structs rows fs) (hf : f ∈ rows) : rowData f.1 ∈ flatten fs ∧
    ∀ s, f.2 = some s → ∃ sub, Rebuilt structs (fieldRows structs false (structs s)) sub ∧
      .mk (rowData f.1) sub ∈ fs ∧ ∀ d ∈ flatten sub, d ∈ flatten fs := by
  induction h with
  | nil => cases hf
  | @field row rows fs _ ih =>
    rcases List.mem_cons.1 hf with rfl | hf
    · refine ⟨by simp [flatten], fun s hs => ?_⟩
      cases hs
    · obtain ⟨hdata, hlist⟩ := ih hf
      refine ⟨by simp [flatten, hdata], fun s hs => ?_⟩
      obtain ⟨sub, hsub, hmem, hall⟩ := hlist s hs
      exact ⟨sub, hsub, List.mem_cons_of_mem _ hmem, fun d hd => by simp [flatten, hall d hd]⟩
  | @list row s rows sub fs hsub _ _ ih =>
    rcases List.mem_cons.1 hf with rfl | hf
    · refine ⟨by simp [flatten], fun s' hs => ?_⟩
      cases hs
      exact ⟨sub, hsub, List.mem_cons_self, fun d hd => by simp [flatten, hd]⟩
    · obtain ⟨hdata, hlist⟩ := ih hf
      refine ⟨by simp [flatten, hdata], fun s hs => ?_⟩
      obtain ⟨sub, hsub, hmem, hall⟩ := hlist s hs
      exact ⟨sub, hsub, List.mem_cons_of_mem _ hmem, fun d hd => by simp [flatten, hall d hd]⟩

theorem Rebuilt.length_eq (h : Rebuilt structs rows fs) : fs.length = rows.length := by
  induction h with
  | nil => rfl
  | field _ ih => rw [List.length_cons, List.length_cons, ih]
  | list _ _ _ ih => rw [List.length_cons, List.length_cons, ih]

variable (structs packet) in
theorem fieldRow_mem {fd : RecordFieldDef} (h : fd ∈ fields) : ∃ f ∈ fieldRows structs packet fields,
    f.1.type = fieldTypeCode fd.type ∧ f.2 = listStruct fd.type ∧
      ∃ j, f.1.offset = describedOffset packet fields j fd.type := by
  obtain ⟨j, hj, rfl⟩ := List.getElem_of_mem h
  exact ⟨_, List.mem_mapIdx.2 ⟨j, hj, rfl⟩, rfl, rfl, j, rfl⟩

/-- A list in the struct of a list is at offset 0, where the next link is. -/
theorem Rebuilds.shallow {s : Struct} (h : Rebuilds structs P s) : Shallow structs P := by
  intro fd hfd t hlist e he t' hnested
  obtain ⟨f, hf, htype, hstruct, -⟩ := fieldRow_mem structs true hfd
  rw [hlist] at htype hstruct
  obtain ⟨sub, hsub, hmem, -⟩ := (h.fields.mem hf).2 t hstruct
  obtain ⟨f', hf', htype', hstruct', j, hoffset⟩ := fieldRow_mem structs false he
  rw [hnested] at htype' hstruct' hoffset
  obtain ⟨sub', -, hmem', -⟩ := (hsub.mem hf').2 t' hstruct'
  have hislist : (Field.mk (rowData f.1) sub).isList = true := by
    simp only [Field.isList, Field.data, rowData, htype]
    rfl
  obtain ⟨-, hall⟩ := h.laid
  obtain ⟨hapart, -⟩ := hall _ hmem hislist
  have hlink := (List.pairwise_cons.1 hapart).1 _ (List.mem_map.2 ⟨_, hmem', rfl⟩)
  have hzero : (rowData f'.1).offset = 0 := by
    simp only [rowData, hoffset]
    rfl
  have hsize : storedSize (rowData f'.1) = 4 := by
    simp only [storedSize, rowData, htype']
    rfl
  simp only [Apart, Field.data, hzero, hsize] at hlink
  omega

theorem Rebuilt.fitsInt {r : Rope} {n m : ℕ} {it it' : StructRecord}
    (h : Rebuilt structs (fieldRows structs true P.fields) fs)
    (hread : readStruct r n (intOf m) it = some (fs, it')) : FitsInt structs P := by
  obtain ⟨hlen, hsmall⟩ := readStruct_small hread
  have hcount : intOf m < 2 ^ 31 := by
    have := BitVec.toInt_lt (x := BitVec.ofNat 32 m)
    unfold intOf
    omega
  have hnat : ∀ row : FieldRow, rowData row ∈ flatten fs → row.size < 2 ^ 31 ∧ row.offset < 2 ^ 31 := by
    intro row hrow
    have := hsmall _ hrow
    simp only [rowData] at this
    omega
  refine ⟨?_, fun row hrow => ?_⟩
  · have hrows := h.length_eq
    rw [fieldRows, List.length_mapIdx] at hrows
    simp only at hlen
    omega
  · obtain ⟨f, hf, hrow⟩ := List.mem_flatMap.1 hrow
    obtain ⟨hdata, hlist⟩ := h.mem hf
    rcases List.mem_cons.1 hrow with rfl | hrow
    · exact hnat _ hdata
    · cases hs : f.2 with
      | none =>
        rw [hs] at hrow
        cases hrow
      | some s =>
        rw [hs] at hrow
        obtain ⟨sub, hsub, -, hall⟩ := hlist s hs
        obtain ⟨f', hf', rfl⟩ := List.mem_map.1 hrow
        exact hnat _ (hall _ (hsub.mem hf').1)

end Rows

/-! ### The tree of a definition -/

/-- Fields without structs. -/
def leaves (rows : List FieldRow) : List Field := rows.map fun row => .mk (rowData row) []

/-- The fields of these rows, where no struct of a list has a list. -/
def tree (structs : ℕ → List RecordFieldDef) (rows : List (FieldRow × Option ℕ)) : List Field :=
  rows.map fun f => .mk (rowData f.1) (leaves (structRows structs f.2))

section Tree
variable {structs : ℕ → List RecordFieldDef} {P : PacketDef} {packet : Bool} {fields : List RecordFieldDef}
  {rows : List (FieldRow × Option ℕ)}

theorem isList_iff (row : FieldRow) : (rowData row).type = PacketFieldType.list.code ↔ row.type = 8 := by
  simp only [rowData, PacketFieldType.code]
  omega

theorem flatten_leaves (rows : List FieldRow) : flatten (leaves rows) = rows.map rowData := by
  unfold leaves
  induction rows with
  | nil => simp [flatten]
  | cons row rows ih => simp [flatten, ih]

theorem flatten_tree (rows : List (FieldRow × Option ℕ)) : flatten (tree structs rows) =
    (rows.flatMap fun f => f.1 :: structRows structs f.2).map rowData := by
  unfold tree
  induction rows with
  | nil => simp [flatten]
  | cons f rows ih => simp [flatten, ih, flatten_leaves]

/-- The structs of these rows have no lists. -/
def Flat (structs : ℕ → List RecordFieldDef) (rows : List (FieldRow × Option ℕ)) : Prop :=
  ∀ f ∈ rows, ∀ s, f.2 = some s → ∀ e ∈ fieldRows structs false (structs s), e.2 = none

theorem Shallow.flat (h : Shallow structs P) : Flat structs (fieldRows structs true P.fields) := by
  intro f hf s hs e he
  obtain ⟨fd, hfd, -, -, hstruct⟩ := mem_fieldRows hf
  obtain ⟨fe, hfe, -, -, hnone⟩ := mem_fieldRows he
  rw [hnone]
  cases hlist : fd.type with
  | list t =>
    rw [hs, hlist] at hstruct
    obtain rfl := Option.some.inj hstruct
    have hno := h fd hfd s hlist fe hfe
    cases hfe' : fe.type with
    | list t => exact absurd hfe' (hno t)
    | _ => rfl
  | _ =>
    rw [hs, hlist] at hstruct
    cases hstruct

theorem sized_leaves {rows : List FieldRow} (h : ∀ row ∈ rows, row.type ≠ 8) : Sized (leaves rows) := by
  induction rows with
  | nil => exact .nil
  | cons row rows ih =>
    obtain ⟨hrow, hrows⟩ := List.forall_mem_cons.1 h
    exact .field (fun h8 => hrow ((isList_iff row).1 h8)) (ih hrows)

theorem sized_tree (hrows : ∀ f ∈ rows, f.2 = none ∧ f.1.type ≠ 8 ∨
    ∃ s, f.2 = some s ∧ f.1.type = 8 ∧ f.1.size = (structs s).length) (hflat : Flat structs rows) :
    Sized (tree structs rows) := by
  induction rows with
  | nil => exact .nil
  | cons f rows ih =>
    obtain ⟨hf, hrest⟩ := List.forall_mem_cons.1 hrows
    have htree := ih hrest fun f hf => hflat f (List.mem_cons_of_mem _ hf)
    rcases hf with ⟨hnone, htype⟩ | ⟨s, hs, htype, hsize⟩
    · have hsub : leaves (structRows structs f.2) = [] := by
        rw [hnone]
        rfl
      unfold tree at htree ⊢
      rw [List.map_cons, hsub]
      exact .field (fun h8 => htype ((isList_iff f.1).1 h8)) htree
    · refine .list ((isList_iff f.1).2 htype) ?_ ?_ htree
      · simp [rowData, hsize, hs, leaves, structRows, fieldRows]
      · rw [hs]
        refine sized_leaves fun row hrow => ?_
        obtain ⟨e, he, rfl⟩ := List.mem_map.1 hrow
        have hnone := hflat f List.mem_cons_self s hs e he
        rcases fieldRow_list he with ⟨-, h8⟩ | ⟨t, ht, -⟩
        · exact h8
        · rw [hnone] at ht
          cases ht

theorem rebuilt_leaves (h : ∀ e ∈ rows, e.2 = none) : Rebuilt structs rows (leaves (rows.map Prod.fst)) := by
  induction rows with
  | nil => exact .nil
  | cons e rows ih =>
    obtain ⟨he, hrest⟩ := List.forall_mem_cons.1 h
    obtain ⟨row, s⟩ := e
    obtain rfl : s = none := he
    exact .field (ih hrest)

theorem rebuilt_tree (hflat : Flat structs rows) : Rebuilt structs rows (tree structs rows) := by
  induction rows with
  | nil => exact .nil
  | cons f rows ih =>
    have htree := ih fun f hf => hflat f (List.mem_cons_of_mem _ hf)
    obtain ⟨row, s⟩ := f
    cases s with
    | none => exact .field htree
    | some s => exact .list (rebuilt_leaves (hflat (row, some s) List.mem_cons_self s rfl)) htree

/-! ### The layout -/

theorem extent_row {fd : RecordFieldDef} (h : packet = true ∨ listStruct fd.type = none) (j : ℕ) :
    ((describedOffset packet fields j fd.type : ℤ),
      storedSize ⟨fd.id.text, fd.tag, fieldTypeCode fd.type, fieldSize structs fd.type,
        describedOffset packet fields j fd.type⟩) =
      ((fieldOffset packet (fields.map RecordFieldDef.type) j : ℤ), (fieldWidth packet fd.type : ℤ)) := by
  cases ht : fd.type with
  | list s =>
    rw [ht] at h
    obtain rfl : packet = true := h.resolve_right (by simp [listStruct])
    rfl
  | _ => cases packet <;> rfl

/-- The layout leaves no overlap between fields, nor with the next link. -/
theorem laid_rows (h : packet = true ∨ ∀ f ∈ fieldRows structs packet fields, f.2 = none)
    (sub : FieldRow × Option ℕ → List Field) :
    (extents packet ((fieldRows structs packet fields).map fun f => .mk (rowData f.1) (sub f))).Pairwise
      Apart := by
  have hmap : ((fieldRows structs packet fields).map fun f => Field.mk (rowData f.1) (sub f)).map
      (fun f => (f.data.offset, storedSize f.data)) = fields.mapIdx fun j fd =>
        ((fieldOffset packet (fields.map RecordFieldDef.type) j : ℤ), (fieldWidth packet fd.type : ℤ)) := by
    apply List.ext_getElem
    · simp [fieldRows]
    · intro j _ hj
      rw [List.length_mapIdx] at hj
      simp only [fieldRows, List.getElem_map, List.getElem_mapIdx]
      exact extent_row (h.imp_right fun hnone => hnone _ (List.mem_mapIdx.2 ⟨j, hj, rfl⟩)) j
  have hfields : (fields.mapIdx fun j fd => ((fieldOffset packet (fields.map RecordFieldDef.type) j : ℤ),
      (fieldWidth packet fd.type : ℤ))).Pairwise Apart := by
    rw [List.pairwise_iff_getElem]
    intro i j hi hj hij
    rw [List.length_mapIdx] at hi
    have hty : (fields.map RecordFieldDef.type)[i]? = some fields[i].type := by simp [hi]
    have hend := fieldOffset_succ packet hty
    have hmono := fieldOffset_mono packet (fields.map RecordFieldDef.type) (show i + 1 ≤ j from hij)
    simp only [List.getElem_mapIdx, Apart]
    omega
  unfold extents
  rw [hmap]
  cases packet with
  | true => exact hfields
  | false =>
    refine List.pairwise_cons.2 ⟨fun a ha => ?_, hfields⟩
    obtain ⟨j, hj, rfl⟩ := List.mem_mapIdx.1 ha
    have hnext : 4 ≤ fieldOffset false (fields.map RecordFieldDef.type) j := Nat.le_add_right 4 _
    simp only [Apart]
    omega

theorem laid_leaves (h : ∀ e ∈ fieldRows structs false fields, e.2 = none) :
    Laid false (leaves ((fieldRows structs false fields).map Prod.fst)) := by
  have hleaves : leaves ((fieldRows structs false fields).map Prod.fst) =
      (fieldRows structs false fields).map fun f => .mk (rowData f.1) [] := by
    unfold leaves
    rw [List.map_map]
    rfl
  rw [hleaves]
  refine ⟨laid_rows (.inr h) fun _ => [], fun f hf hlist => ?_⟩
  -- none of them is a list
  obtain ⟨e, he, rfl⟩ := List.mem_map.1 hf
  have h8 := (isList_iff e.1).1 (of_decide_eq_true hlist)
  rcases fieldRow_list he with ⟨-, hne⟩ | ⟨s, hs, -⟩
  · exact absurd h8 hne
  · rw [h e he] at hs
    cases hs

theorem laid_tree (hflat : Flat structs (fieldRows structs true fields)) :
    Laid true (tree structs (fieldRows structs true fields)) := by
  refine ⟨laid_rows (.inl rfl) fun f => leaves (structRows structs f.2), fun f hf hlist => ?_⟩
  obtain ⟨e, he, rfl⟩ := List.mem_map.1 hf
  have h8 := (isList_iff e.1).1 (of_decide_eq_true hlist)
  rcases fieldRow_list he with ⟨-, hne⟩ | ⟨s, hs, -⟩
  · exact absurd h8 hne
  · simp only [Field.listOf, hs, structRows]
    exact laid_leaves (hflat e he s hs)

theorem readRow_eq {row : FieldRow} (htype : row.type < 2 ^ 31)
    (h : row.size < 2 ^ 31 ∧ row.offset < 2 ^ 31) : readRow row = rowData row := by
  simp only [readRow, rowData, intOf_eq htype, intOf_eq h.1, intOf_eq h.2]

theorem described_type {row : FieldRow} (h : row ∈ describedRows structs P) : row.type < 2 ^ 31 := by
  have hcode : ∀ ty, fieldTypeCode ty < 2 ^ 31 := by
    intro ty
    cases ty <;> simp [fieldTypeCode]
  obtain ⟨f, hf, hrow⟩ := List.mem_flatMap.1 h
  rcases List.mem_cons.1 hrow with rfl | hrow
  · obtain ⟨fd, -, htype, -⟩ := mem_fieldRows hf
    rw [htype]
    exact hcode _
  · cases hs : f.2 with
    | none =>
      rw [hs] at hrow
      cases hrow
    | some s =>
      rw [hs] at hrow
      obtain ⟨e, he, rfl⟩ := List.mem_map.1 hrow
      obtain ⟨fd, -, htype, -⟩ := mem_fieldRows he
      rw [htype]
      exact hcode _

end Tree

/-! ## The round trip -/

/-- The broker has the definition after `recvPacketType` on this rope. -/
def Learns (mem : Junk) (junk : StructRecord) (r : Rope) (structs : ℕ → List RecordFieldDef)
    (P : PacketDef) : Prop :=
  ∃ s, Yields (fun n => recvPacketType junk r n (recordPacket mem r headSize packetType)) s ∧
    Rebuilds structs P s

/-- From the packet that `describe` sends the broker gets the definition exactly if no list of the packet
has a struct with a list, and the numbers are numbers of an `int`. -/
theorem describe_rebuilds_iff {C : ℕ} {mem : Mem ℕ} {structs : ℕ → List RecordFieldDef} {P : PacketDef}
    {pk : Packer} (hC : 32 ≤ C) (hdesc : describePacket C mem structs P = some pk) {r : Rope}
    (hr : Received (idPacketType, pk.rope) r) (junk : Junk) (junk' : StructRecord) :
    Learns junk junk' r structs P ↔ Shallow structs P ∧ FitsInt structs P := by
  obtain ⟨hfound, -, ⟨p, hname⟩, hID, hnum, hlists⟩ := describe_received hC hdesc hr
  have hrecv := recvPacketType_eq junk junk' hfound
  constructor
  · rintro ⟨s, ⟨n, hs⟩, h⟩
    refine ⟨h.shallow, ?_⟩
    simp only [hrecv, Option.bind_eq_some_iff, Option.map_eq_some_iff] at hs
    obtain ⟨q, -, name, -, it, -, x, hx, rfl⟩ := hs
    exact h.fields.fitsInt hx
  · rintro ⟨hshallow, hlen, hrows⟩
    have hflat := hshallow.flat
    have hread : (describedRows structs P).map readRow =
        flatten (tree structs (fieldRows structs true P.fields)) := by
      rw [flatten_tree]
      exact List.map_congr_left fun row hrow => readRow_eq (described_type hrow) (hrows row hrow)
    obtain ⟨it, hit, hat⟩ := exists_at hlists.found junk'
    have hnil : Lists r (r.u32 (0, 28)) (describedRows structs P ++ []) := by
      rwa [List.append_nil]
    obtain ⟨it', -, hyields, -⟩ := readStruct_flatten
      (sized_tree (fun f hf => fieldRow_list hf) hflat) hread hnil hat
    have hcount : (tree structs (fieldRows structs true P.fields)).length = P.fields.length := by
      simp [tree, fieldRows]
    have hnumFields : intOf (r.u32 (0, 24)) = P.fields.length := by
      rw [hnum, intOf_mod, intOf_eq hlen]
    have hnumId : intOf (r.u32 (0, 20)) = P.ID.toInt := by
      rw [hID, intOf, BitVec.ofNat_toNat, BitVec.setWidth_eq]
    refine ⟨⟨P.lower.text, P.ID.toInt, tree structs (fieldRows structs true P.fields)⟩, ?_, rfl, rfl,
      rebuilt_tree hflat, laid_tree hflat⟩
    have hp' : pktFind r (r.u32 (0, headSize)) = some p := hname.found
    simp only [hrecv, hp', Option.bind_some]
    refine (yields_bind (grows_cString p) fun name => (Grows.const _).bind fun it =>
      (grows_readStruct _ it).map _).2 ⟨P.lower.text, cString_of_spells P.lower.noZero hname, ?_⟩
    refine (yields_bind (.const _) fun it => (grows_readStruct _ it).map _).2 ⟨it, yields_const.2 hit, ?_⟩
    refine yields_map.2 ⟨(tree structs (fieldRows structs true P.fields), it'), ?_, ?_⟩
    · rw [hcount, ← hnumFields] at hyields
      exact hyields
    · show Struct.mk _ (intOf (r.u32 (0, 20))) _ = _
      rw [hnumId]

/-- A packet with a tagged name and a list of pairs. -/
def samplePairs : ℕ → List RecordFieldDef := fun _ =>
  [⟨false, .char 3, ⟨[120], by decide⟩⟩, ⟨true, .ulong, ⟨[121], by decide⟩⟩]

def samplePacket : PacketDef :=
  ⟨⟨[112], by decide⟩, 7, [⟨true, .string, ⟨[97], by decide⟩⟩, ⟨false, .list 0, ⟨[98], by decide⟩⟩,
    ⟨false, .int, ⟨[99], by decide⟩⟩]⟩

theorem describe_rebuilds_pairs : ∃ pk r, describePacket 4096 (fun _ _ => 0) samplePairs samplePacket = some pk ∧
    Received (idPacketType, pk.rope) r ∧
    Learns ⟨fun _ => 0, fun _ _ => 0⟩ ⟨fun _ => none, 0, 0⟩ r samplePairs samplePacket := by
  obtain ⟨pk, hdesc⟩ : ∃ pk, describePacket 4096 (fun _ _ => 0) samplePairs samplePacket = some pk := ⟨_, rfl⟩
  obtain ⟨r, hr⟩ := exists_received (p := (idPacketType, pk.rope)) (by simp [idPacketType])
    (describe_framed (by decide) hdesc)
  refine ⟨pk, r, hdesc, hr, (describe_rebuilds_iff (by decide) hdesc hr _ _).2 ⟨?_, by decide, by decide⟩⟩
  intro fd _ s _ e he t
  simp only [samplePairs, List.mem_cons, List.not_mem_nil, or_false] at he
  rcases he with rfl | rfl
  · simp
  · simp

/-- A struct with a list of structs with an `int`. -/
def sampleNested : ℕ → List RecordFieldDef
  | 0 => [⟨false, .list 1, ⟨[120], by decide⟩⟩]
  | _ + 1 => [⟨false, .int, ⟨[121], by decide⟩⟩]

def nestedPacket : PacketDef := ⟨⟨[112], by decide⟩, 7, [⟨false, .list 0, ⟨[97], by decide⟩⟩]⟩

theorem nestedPacket_not_shallow : ¬ Shallow sampleNested nestedPacket :=
  fun h => h _ List.mem_cons_self 0 rfl _ List.mem_cons_self 1 rfl

theorem nested_list_not_rebuilt : ¬ ∀ (C : ℕ) (mem : Mem ℕ) (structs : ℕ → List RecordFieldDef) (P : PacketDef)
    (pk : Packer) (r : Rope) (junk : Junk) (junk' : StructRecord), 32 ≤ C →
    describePacket C mem structs P = some pk → Received (idPacketType, pk.rope) r →
    Learns junk junk' r structs P := by
  intro h
  obtain ⟨pk, hdesc⟩ : ∃ pk, describePacket 4096 (fun _ _ => 0) sampleNested nestedPacket = some pk :=
    ⟨_, rfl⟩
  obtain ⟨r, hr⟩ := exists_received (p := (idPacketType, pk.rope)) (by simp [idPacketType])
    (describe_framed (by decide) hdesc)
  obtain ⟨s, -, hs⟩ := h 4096 _ _ _ pk r ⟨fun _ => 0, fun _ _ => 0⟩ ⟨fun _ => none, 0, 0⟩ (by decide)
    hdesc hr
  exact nestedPacket_not_shallow hs.shallow

end Netp.Broker.Influx
