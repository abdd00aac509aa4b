import Netp.Genf.Unset

/-! # The generated `describe` (`genf/record.lm`)

For every packet the generator writes a function that sends the packet's own definition, as a `PacketType`:
a `PacketField` for each field, and behind that of a list one for each field of the list's struct. `describe`
is the calls of setters it makes. On the receiver's rope the links from `head_fields` lead through one record
for each of them, in order (`describe_lists`).
-/

namespace Netp.Genf
open Netp.Lib
set_option autoImplicit false

/-! ## Definitions -/

/-- An identifier. -/
structure Ident where
  text : List UInt8
  noZero : 0 ∉ text

/-- `record_field_def`. -/
structure RecordFieldDef where
  tag : Bool
  type : FieldType
  id : Ident

/-- `packet`: `Packer::P::lower`, `P::ID` and the fields. -/
structure PacketDef where
  lower : Ident
  ID : BitVec 32
  fields : List RecordFieldDef

/-- `struct PacketField` of `genf/genf.lm`: `name`, `_tag`, `type`, `size`, `_offset`. -/
def packetField : List FieldType := [.string, .bool, .int, .int, .int]

/-- `packet PacketType`: `_name`, `numId`, `numFields`, `fields`. -/
def packetType : List FieldType := [.string, .int, .int, .list 0]

def idPacketType : ℕ := 1

/-! ## `describe` -/

def fieldTypeCode : FieldType → ℕ
  | .bool => 1
  | .int => 2
  | .uint => 3
  | .long => 4
  | .ulong => 5
  | .string => 6
  | .char _ => 7
  | .list _ => 8

section Describe
variable (structs : ℕ → List RecordFieldDef)

def fieldSize : FieldType → ℕ
  | .bool => 1
  | .int => 4
  | .uint => 4
  | .long => 8
  | .ulong => 8
  | .string => 0
  | .char n => n
  -- the number of fields, which appear immediately after this node
  | .list s => (structs s).length

/-- What is passed to the setters of a `PacketField`. -/
structure FieldRow where
  id : Ident
  tag : Bool
  type : ℕ
  size : ℕ
  offset : ℕ

/-- `FD.Offset`. There is no case for a list in `consStruct`, where it stays 0. -/
def describedOffset (packet : Bool) (fields : List RecordFieldDef) (j : ℕ) (ty : FieldType) : ℕ :=
  match packet, ty with
  | false, .list _ => 0
  | _, _ => fieldOffset packet (fields.map RecordFieldDef.type) j

/-- The struct of a list. -/
def listStruct : FieldType → Option ℕ
  | .list s => some s
  | _ => none

/-- The fields of a packet (`true`) or struct as they are described, each with the struct of its list. -/
def fieldRows (packet : Bool) (fields : List RecordFieldDef) : List (FieldRow × Option ℕ) :=
  fields.mapIdx fun j fd => (⟨fd.id, fd.tag, fieldTypeCode fd.type, fieldSize structs fd.type,
    describedOffset packet fields j fd.type⟩, listStruct fd.type)

/-- The fields of the struct behind a list field. -/
def structRows (s : Option ℕ) : List FieldRow :=
  match s with
  | some s => (fieldRows structs false (structs s)).map Prod.fst
  | none => []

/-- All rows, in the order in which they are sent. -/
def describedRows (P : PacketDef) : List FieldRow :=
  (fieldRows structs true P.fields).flatMap fun f => f.1 :: structRows structs f.2

end Describe

/-- The calls for a row, which gets object `k`. -/
def describeRow (k : ℕ) (row : FieldRow) : List Op :=
  [.alloc 3, .set k 0 (.string row.id.text), .set k 2 (.int (BitVec.ofNat 32 row.type))] ++
    (if row.tag then [.set k 1 (.bool true)] else []) ++
    [.set k 3 (.int (BitVec.ofNat 32 row.size)), .set k 4 (.int (BitVec.ofNat 32 row.offset))]

def describeRows (k : ℕ) : List FieldRow → List Op
  | [] => []
  | row :: rows => describeRow k row ++ describeRows (k + 1) rows

/-- `Packer::P::describe`, after the check that it has not been called on the connection. -/
def describe (structs : ℕ → List RecordFieldDef) (P : PacketDef) : List Op :=
  [.set 0 0 (.string P.lower.text), .set 0 1 (.int P.ID),
    .set 0 2 (.int (BitVec.ofNat 32 P.fields.length))] ++ describeRows 1 (describedRows structs P)

/-- The packet that `describe` sends. -/
def describePacket (C : ℕ) (mem : Mem ℕ) (structs : ℕ → List RecordFieldDef) (P : PacketDef) :
    Option Packer :=
  (openPacker C mem idPacketType packetType).bind fun pk =>
    execAll C (fun _ => packetField) pk (describe structs P)

/-! ## What is set in which object -/

theorem lastSet_append (ops ops' : List Op) (k j : ℕ) :
    lastSet (ops ++ ops') k j = (lastSet ops' k j).or (lastSet ops k j) := by
  simp only [lastSet, List.reverse_append, List.findSome?_append]

theorem allocs_append (ops ops' : List Op) : allocs (ops ++ ops') = allocs ops ++ allocs ops' := by
  simp only [allocs, List.filterMap_append]

/-- Field `j` of the record for a row. -/
def FieldRow.value (row : FieldRow) : ℕ → Option Value
  | 0 => some (.string row.id.text)
  | 1 => if row.tag then some (.bool true) else none
  | 2 => some (.int (BitVec.ofNat 32 row.type))
  | 3 => some (.int (BitVec.ofNat 32 row.size))
  | 4 => some (.int (BitVec.ofNat 32 row.offset))
  | _ + 5 => none

theorem lastSet_describeRow (k' k j : ℕ) (row : FieldRow) :
    lastSet (describeRow k' row) k j = if k' = k then row.value j else none := by
  by_cases hk : k' = k
  · subst hk
    cases ht : row.tag with
    | false =>
      match j with
      | 0 | 1 | 2 | 3 | 4 => simp [lastSet, describeRow, FieldRow.value, ht]
      | j + 5 => simp [lastSet, describeRow, FieldRow.value, ht]
    | true =>
      match j with
      | 0 | 1 | 2 | 3 | 4 => simp [lastSet, describeRow, FieldRow.value, ht]
      | j + 5 => simp [lastSet, describeRow, FieldRow.value, ht]
  · cases ht : row.tag <;> simp [lastSet, describeRow, ht, hk]

theorem lastSet_describeRows (n k j : ℕ) (rows : List FieldRow) :
    lastSet (describeRows n rows) k j = if n ≤ k then rows[k - n]?.bind fun row => row.value j else none := by
  induction rows generalizing n with
  | nil => simp [describeRows, lastSet]
  | cons row rows ih =>
    rw [describeRows, lastSet_append, ih, lastSet_describeRow]
    rcases Nat.lt_trichotomy n k with h | h | h
    · have hsub : k - n = (k - (n + 1)) + 1 := by omega
      rw [if_pos (show n + 1 ≤ k from h), if_neg (by omega), if_pos h.le, hsub, List.getElem?_cons_succ,
        Option.or_none]
    · subst h
      simp
    · rw [if_neg (by omega), if_neg (by omega), if_neg (by omega)]
      rfl

theorem allocs_describeRows (n : ℕ) (rows : List FieldRow) :
    allocs (describeRows n rows) = List.replicate rows.length 3 := by
  induction rows generalizing n with
  | nil => rfl
  | cons row rows ih =>
    rw [describeRows, allocs_append, ih, List.length_cons, List.replicate_succ]
    cases ht : row.tag <;> simp [describeRow, allocs, ht]

theorem appended_describe (structs : ℕ → List RecordFieldDef) (P : PacketDef) :
    appended (describe structs P) 3 = List.range' 1 (describedRows structs P).length := by
  have hallocs : allocs (describe structs P) = List.replicate (describedRows structs P).length 3 := by
    unfold describe
    rw [allocs_append, allocs_describeRows]
    rfl
  have hzip : ∀ n i, ((List.replicate n 3).zipIdx i).filterMap
      (fun p => if p.1 = 3 then some p.2 else none) = List.range' i n := by
    intro n
    induction n with
    | zero => exact fun i => rfl
    | succ n ih =>
      intro i
      rw [List.replicate_succ, List.zipIdx_cons, List.filterMap_cons, List.range'_succ, ih]
      rfl
  unfold appended
  rw [hallocs, hzip]

theorem lastSet_describe (structs : ℕ → List RecordFieldDef) (P : PacketDef) {i : ℕ} {row : FieldRow}
    (h : (describedRows structs P)[i]? = some row) (j : ℕ) :
    lastSet (describe structs P) (1 + i) j = row.value j := by
  unfold describe
  rw [lastSet_append, lastSet_describeRows, if_pos (Nat.le_add_right 1 i), Nat.add_sub_cancel_left, h,
    Option.bind_some]
  have hheader : lastSet [.set 0 0 (.string P.lower.text), .set 0 1 (.int P.ID),
      .set 0 2 (.int (BitVec.ofNat 32 P.fields.length))] (1 + i) j = none := by
    have hne : ¬ 0 = 1 + i := by omega
    simp [lastSet, hne]
  rw [hheader, Option.or_none]

theorem lastSet_header (structs : ℕ → List RecordFieldDef) (P : PacketDef) (j : ℕ) :
    lastSet (describe structs P) 0 j = lastSet [.set 0 0 (.string P.lower.text), .set 0 1 (.int P.ID),
      .set 0 2 (.int (BitVec.ofNat 32 P.fields.length))] 0 j := by
  unfold describe
  rw [lastSet_append, lastSet_describeRows]
  rfl

/-! ## On the receiver's rope -/

/-- `pktFind` finds this string, with its zero byte in the same block. -/
structure Spells (r : Rope) (off : ℕ) (text : List UInt8) (p : Ptr) : Prop where
  found : pktFind r off = some p
  bytes : r.load p (text.length + 1) = text ++ [0]
  inside : p.2 + (text.length + 1) ≤ r.len p.1

/-- The record at `overlay` is that of a row. -/
structure RowAt (r : Rope) (overlay : Ptr) (row : FieldRow) : Prop where
  inside : overlay.2 + recordSize false packetField ≤ r.len overlay.1
  name : ∃ p, Spells r (r.u32 (overlay.1, overlay.2 + 4)) row.id.text p
  tag : (r.mem overlay.1 (overlay.2 + 8) != 0) = row.tag
  type : r.u32 (overlay.1, overlay.2 + 9) = row.type % 2 ^ 32
  size : r.u32 (overlay.1, overlay.2 + 13) = row.size % 2 ^ 32
  offset : r.u32 (overlay.1, overlay.2 + 17) = row.offset % 2 ^ 32

/-- From `off` on the links lead through records of these rows, and to 0. -/
def Lists (r : Rope) : ℕ → List FieldRow → Prop
  | off, [] => off = 0
  | off, row :: rows => off ≠ 0 ∧ ∃ overlay, pktFind r off = some overlay ∧ RowAt r overlay row ∧
      Lists r (r.u32 overlay) rows

theorem Lists.found {r : Rope} {off : ℕ} {rows : List FieldRow} (h : Lists r off rows) :
    off = 0 ∨ ∃ overlay, pktFind r off = some overlay ∧
      overlay.2 + recordSize false packetField ≤ r.len overlay.1 := by
  cases rows with
  | nil => exact .inl h
  | cons row rows =>
    obtain ⟨-, overlay, ho, hrow, -⟩ := h
    exact .inr ⟨overlay, ho, hrow.inside⟩

theorem lists_of_leads {r : Rope} {objs : List Obj} {off n : ℕ} {rows : List FieldRow}
    (h : Leads r objs off (List.range' n rows.length))
    (hrows : ∀ i row o, rows[i]? = some row → objs[n + i]? = some o → RowAt r o.overlay row) :
    Lists r off rows := by
  induction rows generalizing off n with
  | nil => exact h
  | cons row rows ih =>
    rw [List.length_cons, List.range'_succ] at h
    obtain ⟨hne, o, ho, hp, hrest⟩ := h
    refine ⟨hne, o.overlay, hp, hrows 0 row o rfl ho, ih hrest fun i row' o' hi ho' => ?_⟩
    refine hrows (i + 1) row' o' hi ?_
    rwa [Nat.add_comm i 1, ← Nat.add_assoc]

theorem u32_of_load {r : Rope} {p : Ptr} {n : ℕ} (h : r.load p 4 = le 4 (BitVec.ofNat 32 n).toNat) :
    r.u32 p = n % 2 ^ 32 := by
  have hv : r.u32 p = (BitVec.ofNat 32 n).toNat :=
    (congrArg ofLe h).trans (ofLe_le_of_lt (BitVec.ofNat 32 n).isLt)
  rw [hv, BitVec.toNat_ofNat]

theorem SlotHolds.int {r : Rope} {strs : List (Region ℕ)} {packet : Bool} {slot : Ptr} {v : BitVec 32}
    (h : SlotHolds r strs packet slot .int (.int v)) : r.load slot 4 = le 4 v.toNat := by
  obtain ⟨bs, hbs, hload⟩ := h
  exact hload.trans (Option.some.inj hbs).symm

section Received
variable {C : ℕ} {mem : Mem ℕ} {structs : ℕ → List RecordFieldDef} {P : PacketDef} {pk : Packer} {r : Rope}

theorem describe_framed (hC : 32 ≤ C) (hdesc : describePacket C mem structs P = some pk) :
    Framed idPacketType pk.rope := by
  obtain ⟨pk0, hopen, hrun⟩ := Option.bind_eq_some_iff.1 hdesc
  obtain ⟨strs, hrep⟩ := rep_run (rep_open (P := packetType) hC hopen) hrun
  exact hrep.framed (execAll_small (openPacker_small hopen) hrun)

/-- What the receiver finds: the name, the two numbers and the rows. -/
theorem describe_received (hC : 32 ≤ C) (hdesc : describePacket C mem structs P = some pk)
    (hr : Received (idPacketType, pk.rope) r) :
    pktFind r headSize = some (0, headSize) ∧ headSize + recordSize true packetType ≤ r.len 0 ∧
      (∃ p, Spells r (r.u32 (0, 16)) P.lower.text p) ∧
      r.u32 (0, 20) = P.ID.toNat ∧ r.u32 (0, 24) = P.fields.length % 2 ^ 32 ∧
      Lists r (r.u32 (0, 28)) (describedRows structs P) := by
  have hf := describe_framed hC hdesc
  obtain ⟨pk0, hopen, hrun⟩ := Option.bind_eq_some_iff.1 hdesc
  have hfit : recordSize true packetType + 16 ≤ C := hC
  have hrep0 := rep_open hfit hopen
  obtain ⟨strs, hrep⟩ := rep_run hrep0 hrun
  have hl0 : Linked (fun _ => packetField) packetType [] pk0 := linked_open hfit hopen
  have hl := hl0.run hrep0 hrun
  have hu := (unset_open hfit hopen).run hrep0 hrun
  rw [List.nil_append] at hrep hl hu
  have hid : idPacketType < 2 ^ 32 := by decide
  -- the packet's own record
  have hheader : ∀ j ty v, packetType[j]? = some ty → lastSet (describe structs P) 0 j = some v →
      SlotHolds r strs true (0, 16 + fieldOffset true packetType j) ty v := by
    intro j ty v hty hv
    exact (hrep.vals 0 j _ ty v hrep.record hty hv).frame (hr.finds hid hf)
      (hr.sameAt hid hf ((hrep.objs_in 0 _ hrep.record).within (Obj.slot_within hty)))
      (fun g hg => hr.sameAt hid hf (hrep.strs_in g hg)) (List.Subset.refl _)
  have hname := hheader 0 .string (.string P.lower.text) rfl (by rw [lastSet_header]; rfl)
  have hnumId := hheader 1 .int (.int P.ID) rfl (by rw [lastSet_header]; rfl)
  have hnumFields := hheader 2 .int (.int (BitVec.ofNat 32 P.fields.length)) rfl
    (by rw [lastSet_header]; rfl)
  have hspells : ∀ {packet : Bool} {slot : Ptr} {text : List UInt8},
      SlotHolds r strs packet slot .string (.string text) → ∃ p, Spells r (r.u32 slot) text p := by
    rintro packet slot text ⟨p, hp, hmem, hbytes⟩
    exact ⟨p, hp, hbytes, hr.inside hid hf (hrep.strs_in _ hmem)⟩
  refine ⟨hr.finds hid hf (pktFind_record hrep.first (by decide)),
    hr.inside hid hf (hrep.objs_in 0 _ hrep.record), hspells hname, ?_, ?_, ?_⟩
  · exact (congrArg ofLe hnumId.int).trans (ofLe_le_of_lt P.ID.isLt)
  · exact u32_of_load hnumFields.int
  · have hleads := hr.leads hid hf hrep hl (j := 3) rfl
    rw [appended_describe] at hleads
    refine lists_of_leads hleads fun i row o hrow ho => ?_
    have hk : 1 + i ∈ appended (describe structs P) 3 := by
      rw [appended_describe, List.mem_range'_1]
      have := (List.getElem?_eq_some_iff.1 hrow).1
      omega
    have hp := hrep.appended_packet hk ho
    have hfields := hl.fields 3 0 rfl _ hk o ho
    have hset := lastSet_describe structs P hrow
    have hslot : ∀ j ty v, packetField[j]? = some ty → row.value j = some v →
        SlotHolds r strs false (o.overlay.1, o.overlay.2 + fieldOffset false packetField j) ty v := by
      intro j ty v hty hv
      have := hr.element hid hf hrep ho hp (i := j) (hfields ▸ hty) ((hset j).trans hv)
      rwa [hfields] at this
    refine ⟨?_, hspells (hslot 0 .string _ rfl rfl), ?_, u32_of_load (hslot 2 .int _ rfl rfl).int,
      u32_of_load (hslot 3 .int _ rfl rfl).int, u32_of_load (hslot 4 .int _ rfl rfl).int⟩
    · have hregion := hr.inside hid hf (hrep.objs_in _ o ho)
      rw [Obj.region, hfields, hp] at hregion
      exact hregion
    · -- `_tag` is set, or as it was
      have hbyte : r.load (o.overlay.1, o.overlay.2 + 8) 1 = [if row.tag then 1 else 0] := by
        cases ht : row.tag with
        | true =>
          obtain ⟨bs, hbs, hload⟩ := hslot 1 .bool (.bool true) rfl (by simp [FieldRow.value, ht])
          exact hload.trans (Option.some.inj hbs).symm
        | false =>
          have htag : o.fields[1]? = some .bool := by
            rw [hfields]
            rfl
          have hzero := hr.unset hid hf hrep hu ho htag (fun s hs => by cases hs)
            ((hset 1).trans (by simp [FieldRow.value, ht]))
          unfold Obj.slot at hzero
          rw [hfields, hp] at hzero
          exact hzero
      rw [load_singleton hbyte]
      cases row.tag
      · rfl
      · rfl

end Received

end Netp.Genf
