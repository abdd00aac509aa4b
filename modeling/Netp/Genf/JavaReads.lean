import Netp.Genf.Describe
import Netp.Genf.Java
import Netp.Lib.Fuel

/-! # What the Java classes read

`Agrees` says that a packet is read as it was packed. On the blocks of a sent packet the Java functions compute
what the C++ ones do on its rope (`pktFind_contents`, `getInt_at`), and every field but a `bool` is read as it
was packed, up to the charset of the strings (`Filled.loadField`).
-/

namespace Netp.Genf.Java
open Netp.Lib
set_option autoImplicit false

/-! ## What it is to agree -/

/-- A member has a packed value, up to its sign. -/
def Member.Is : Member → Value → Prop
  | .byte b, .bool v => b = if v then 1 else 0
  | .int x, .int v => x = v
  | .int x, .uint v => x = v
  | .long x, .long v => x = v
  | .long x, .ulong v => x = v
  | .string cs, .string s => cs.map Char.toNat = s.map UInt8.toNat
  | .bytes bs, .char v => bs = v
  | _, _ => False

/-- What a record holds before anything is set. -/
def zeroValue : FieldType → Value
  | .bool => .bool false
  | .int => .int 0
  | .uint => .uint 0
  | .long => .long 0
  | .ulong => .ulong 0
  | .string => .string []
  | .char n => .char (List.replicate n 0)
  | .list _ => .uint 0

/-- The value packed for field `j` of object `k`. -/
def packedValue (ops : List Op) (k j : ℕ) (ty : FieldType) : Value :=
  ((lastSet ops k j).map (elementValue ty)).getD (zeroValue ty)

def packStructs (S : Schema) (s : ℕ) : List FieldType := fieldTypes (S.struct s)

/-- A packet of the schema, filled by the setters `ops`, with all strings set. -/
structure Packs (C : ℕ) (S : Schema) (P : List RecordFieldType) (ops : List Op) (pk : Packer) : Prop where
  run : ∃ id mem pk0, openPacker C mem id (fieldTypes P) = some pk0 ∧
    execAll C (packStructs S) pk0 ops = some pk
  strings : ∀ (k j : ℕ) (o : Obj), pk.objs[k]? = some o → o.fields[j]? = some .string →
    (lastSet ops k j).isSome

/-- The blocks that are sent. -/
def sentRecord (pk : Packer) : Record := (packetBaseSend pk.rope).contents

/-- An element has the values packed for object `k`. -/
def Element.Has (fields : List RecordFieldType) (ops : List Op) (k : ℕ) (el : Element) : Prop :=
  ∀ (i : ℕ) (ty : RecordFieldType), fields[i]? = some ty → (∀ s, ty ≠ .list s) →
    ∃ x, el.members[i]? = some (some x) ∧ x.Is (packedValue ops k i ty.analysed)

/-- The iteration from `head` on visits the objects `ks`. -/
def Visits (record : Record) (fields : List RecordFieldType) (ops : List Op) (ks : List ℕ) (head : ℤ) : Prop :=
  ∃ first els, Element.new record fields head = some first ∧
    Yields (fun n => Element.visit record fields n first) els ∧
    List.Forall₂ (Element.Has fields ops) ks els

/-- The packet is read as it was packed: every field, and the elements of every list. -/
def Agrees (javac : Schema → Bool) (S : Schema) (P : List RecordFieldType) (ops : List Op) (pk : Packer) :
    Prop :=
  ∃ values, dispatch javac S (sentRecord pk) P = some values ∧
    (∀ (j : ℕ) (ty : RecordFieldType), P[j]? = some ty → (∀ s, ty ≠ .list s) →
      ∃ x, values[j]? = some x ∧ x.Is (packedValue ops 0 j ty.analysed)) ∧
    ∀ j s, P[j]? = some (.list s) → ∃ head, values[j]? = some (.int head) ∧
      (∀ o, pk.objs[0]? = some o → head.toNat = pk.rope.u32 (o.slot j)) ∧
      Visits (sentRecord pk) (S.struct s) ops (appended ops j) head.toInt

/-! ## The blocks as arrays -/

section Blocks
variable {r : Rope} {p : Ptr} {off n : ℕ}

/-- The array and the index of an address. -/
def posAt (r : Rope) (p : Ptr) : RecordPos := ⟨r.mem.load p.1 0 (r.len p.1), p.2⟩

theorem findFrom_contents (m : Mem ℕ) (len : ℕ → ℕ) {b : ℕ} (l : ℕ) {bs : List RopeBlock}
    (hlen : ∀ i, len (b + i) = (bs[i]?.map RopeBlock.len).getD 0) :
    findFrom (bs.mapIdx fun i blk => m.load (b + i) 0 blk.len) l =
      (Genf.findFrom b bs l).map fun p => ⟨m.load p.1 0 (len p.1), p.2⟩ := by
  induction bs generalizing b l with
  | nil => rfl
  | cons blk bs ih =>
    have hb : len b = blk.len := hlen 0
    rw [List.mapIdx_cons, findFrom, Genf.findFrom, Mem.load_length, Nat.add_zero]
    by_cases hl : l < blk.len
    · rw [if_pos (by omega), if_pos hl, Option.map_some, hb]
    · have hsub : (l : ℤ) - (blk.len : ℤ) = ((l - blk.len : ℕ) : ℤ) := by omega
      have hidx : ∀ i, b + (i + 1) = b + 1 + i := fun i => by omega
      have htail : (fun i (blk : RopeBlock) => m.load (b + (i + 1)) 0 blk.len) =
          fun i blk => m.load (b + 1 + i) 0 blk.len := by
        funext i blk
        rw [hidx]
      rw [if_neg (by omega), if_neg hl, hsub, htail]
      apply ih
      intro i
      rw [← hidx]
      exact hlen (i + 1)

theorem pktFind_contents (r : Rope) (l : ℕ) : pktFind r.contents l = (Genf.pktFind r l).map (posAt r) := by
  unfold pktFind Genf.pktFind
  by_cases hl : l = 0
  · rw [if_pos hl, if_pos (by omega)]
    rfl
  · rw [if_neg hl, if_neg (by omega)]
    have hlen : ∀ i, r.len (0 + i) = (r.blocks[i]?.map RopeBlock.len).getD 0 := by
      intro i
      rw [Nat.zero_add]
      rfl
    have h := findFrom_contents r.mem r.len l hlen
    simp only [Nat.zero_add] at h
    exact h

theorem slice_at {i : ℕ} (h : i + n ≤ r.len p.1) :
    slice (posAt r p).element i n = some (r.load (p.1, i) n) := by
  unfold slice posAt
  rw [if_pos (by simp only [Mem.load_length]; omega), Int.toNat_natCast, Mem.load_drop _ _ _ (by omega),
    Mem.load_take _ _ _ (by omega), Nat.zero_add]
  rfl

theorem getInt_at (h : p.2 + off + 4 ≤ r.len p.1) :
    getInt (posAt r p).element ((posAt r p).offset + off) =
      some (BitVec.ofNat 32 (r.u32 (p.1, p.2 + off))) := by
  have hidx : (posAt r p).offset + off = ((p.2 + off : ℕ) : ℤ) := by simp [posAt]
  unfold getInt
  rw [hidx, slice_at h]
  rfl

theorem getLong_at (h : p.2 + off + 8 ≤ r.len p.1) :
    getLong (posAt r p).element ((posAt r p).offset + off) =
      some (BitVec.ofNat 64 (r.u64 (p.1, p.2 + off))) := by
  have hidx : (posAt r p).offset + off = ((p.2 + off : ℕ) : ℤ) := by simp [posAt]
  unfold getLong
  rw [hidx, slice_at h]
  rfl

theorem copyOfRange_at (h : p.2 + off + n ≤ r.len p.1) (hsmall : r.len p.1 < 2 ^ 31) :
    copyOfRange (posAt r p).element ((posAt r p).offset + off)
      (int32 ((posAt r p).offset + off + n)) = some (r.load (p.1, p.2 + off) n) := by
  have hstart : (posAt r p).offset + off = ((p.2 + off : ℕ) : ℤ) := by simp [posAt]
  have hstop : int32 (((p.2 + off : ℕ) : ℤ) + n) = ((p.2 + off : ℕ) : ℤ) + n := by
    unfold int32
    rw [BitVec.toInt_ofInt, Int.bmod_def]
    omega
  have hn : (((p.2 + off : ℕ) : ℤ) + n - ((p.2 + off : ℕ) : ℤ)).toNat = n := by omega
  unfold copyOfRange
  rw [hstart, hstop, hn]
  simp only [posAt, Mem.load_length]
  rw [if_pos (by omega), Int.toNat_natCast, Mem.load_drop _ _ _ (by omega), List.take_append_of_le_length
    (by rw [Mem.load_length]; omega), Mem.load_take _ _ _ (by omega), Nat.zero_add]
  rfl

theorem string_at {s : List UInt8} (h : p.2 + s.length + 1 ≤ r.len p.1)
    (hs : r.load p (s.length + 1) = s ++ [0]) (hz : 0 ∉ s) :
    packetStrLen (posAt r p) = some s.length ∧
      newString (posAt r p).element (posAt r p).offset s.length = some (s.map asciiChar) := by
  have hload : r.load p s.length = s := by
    have := congrArg (List.take s.length) hs
    rw [Rope.load, Mem.load_take _ _ _ (by omega), List.take_left' rfl] at this
    exact this
  constructor
  · unfold packetStrLen
    rw [if_pos (by simp [posAt])]
    simp only [posAt, Int.toNat_natCast]
    obtain ⟨rest, hrest⟩ : ∃ rest, (r.mem.load p.1 0 (r.len p.1)).drop p.2 = s ++ 0 :: rest := by
      refine ⟨r.mem.load p.1 (p.2 + (s.length + 1)) (r.len p.1 - p.2 - (s.length + 1)), ?_⟩
      rw [Mem.load_drop _ _ _ (by omega), Nat.zero_add]
      have hsplit : r.len p.1 - p.2 = (s.length + 1) + (r.len p.1 - p.2 - (s.length + 1)) := by omega
      rw [hsplit, Mem.load_add]
      have hs' : r.mem.load p.1 p.2 (s.length + 1) = s ++ [0] := hs
      rw [hs', List.append_assoc, List.singleton_append, Nat.add_sub_cancel_left]
    rw [hrest, List.takeWhile_append_of_pos]
    · simp
    · intro b hb
      simp only [ne_eq, decide_eq_true_eq]
      rintro rfl
      exact hz hb
  · unfold newString
    have hidx : (posAt r p).offset = ((p.2 : ℕ) : ℤ) := rfl
    rw [hidx, slice_at (by omega), Option.map_some, hload]

theorem findFrom_lt {b l : ℕ} {bs : List RopeBlock} (h : Genf.findFrom b bs l = some p) :
    l < (bs.map RopeBlock.len).sum := by
  induction bs generalizing b l with
  | nil => cases h
  | cons blk bs ih =>
    rw [Genf.findFrom] at h
    rw [List.map_cons, List.sum_cons]
    split at h
    · omega
    · have := ih h
      omega

theorem pktFind_lt {l : ℕ} (h : Genf.pktFind r l = some p) : l < r.length := by
  unfold Genf.pktFind at h
  split at h
  · cases h
  · exact findFrom_lt h

theorem len_le_length (r : Rope) (b : ℕ) : r.len b ≤ r.length := by
  unfold Rope.len Rope.length
  cases hb : r.blocks[b]? with
  | none => simp
  | some blk => exact List.single_le_sum (by simp) _ (List.mem_map_of_mem (List.mem_of_getElem? hb))

theorem toInt_offset {l : ℕ} (h : l < 2 ^ 31) : (BitVec.ofNat 32 l).toInt = l := by
  rw [BitVec.toInt_eq_toNat_of_lt]
  · simp
    omega
  · simp
    omega

end Blocks

/-! ## Fields -/

/-- What the classes make of a packed value. -/
def Member.ofValue : Value → Member
  | .bool v => .byte (if v then 1 else 0)
  | .int v => .int v
  | .uint v => .int v
  | .long v => .long v
  | .ulong v => .long v
  | .string s => .string (s.map asciiChar)
  | .char bs => .bytes bs

/-- A value that the charset has. -/
def InCharset : Value → Prop
  | .string s => ∀ b ∈ s, b < 128
  | _ => True

theorem asciiChar_iff (b : UInt8) : (asciiChar b).toNat = b.toNat ↔ b < 128 := by
  unfold asciiChar
  by_cases hb : b < 128
  · rw [if_pos hb]
    have hlt : b.toNat < 128 := hb
    have hvalid : b.toNat.isValidChar := .inl (by omega)
    refine iff_of_true ?_ hb
    rw [Char.ofNat, dif_pos hvalid]
    rfl
  · rw [if_neg hb]
    have := b.toNat_lt
    have hc : ('\uFFFD' : Char).toNat = 65533 := rfl
    rw [hc]
    constructor
    · intro h
      omega
    · exact fun h => absurd h hb

theorem ofValue_is (v : Value) : (Member.ofValue v).Is v ↔ InCharset v := by
  cases v with
  | string s =>
    simp only [Member.ofValue, Member.Is, InCharset, List.map_map]
    rw [List.map_inj_left]
    exact forall₂_congr fun b _ => asciiChar_iff b
  | _ => simp [Member.ofValue, Member.Is, InCharset]

section Fields
variable {r : Rope} {p : Ptr} {off : ℕ} {packet : Bool} {strs : List (Region ℕ)} {ty : RecordFieldType}
  {v : Value}

/-- The number of a `char` is the same to Java and to `atoi`. -/
def NumberOk (ty : RecordFieldType) : Prop :=
  ∀ number, ty = .char number → intLiteral number = some ((atoi number : ℕ) : ℤ)

/-- What is packed in a field is read, given that the field lies in its block and strings in theirs. -/
theorem loadField_holds (h : SlotHolds r strs packet (p.1, p.2 + off) ty.analysed v)
    (hin : p.2 + off + fieldWidth packet ty.analysed ≤ r.len p.1) (hsmall : r.length < 2 ^ 31)
    (hstrs : ∀ g ∈ strs, g.start + g.size ≤ r.len g.blk) (hzero : ∀ s, v = .string s → 0 ∉ s)
    (hnum : NumberOk ty) (hbool : ty ≠ .bool) (hlist : ∀ s, ty ≠ .list s) :
    loadField r.contents (posAt r p) off ty = some (Member.ofValue (elementValue ty.analysed v)) := by
  have hlen := (len_le_length r p.1).trans_lt hsmall
  cases ty with
  | bool => exact absurd rfl hbool
  | list s => exact absurd rfl (hlist s)
  | int =>
    cases v with
    | int v =>
      obtain ⟨bs, hbs, hload⟩ := h
      cases hbs
      rw [loadField, getInt_at hin, bv32_u32 hload]
      rfl
    | _ => obtain ⟨bs, hbs, -⟩ := h; cases hbs
  | uint =>
    cases v with
    | uint v =>
      obtain ⟨bs, hbs, hload⟩ := h
      cases hbs
      rw [loadField, getInt_at hin, bv32_u32 hload]
      rfl
    | _ => obtain ⟨bs, hbs, -⟩ := h; cases hbs
  | long =>
    cases v with
    | long v =>
      obtain ⟨bs, hbs, hload⟩ := h
      cases hbs
      rw [loadField, getLong_at hin, bv64_u64 hload]
      rfl
    | _ => obtain ⟨bs, hbs, -⟩ := h; cases hbs
  | ulong =>
    cases v with
    | ulong v =>
      obtain ⟨bs, hbs, hload⟩ := h
      cases hbs
      rw [loadField, getLong_at hin, bv64_u64 hload]
      rfl
    | _ => obtain ⟨bs, hbs, -⟩ := h; cases hbs
  | string =>
    cases v with
    | string s =>
      obtain ⟨q, hq, hmem, hbytes⟩ := h
      have hroom := hstrs _ hmem
      obtain ⟨hstrlen, hnew⟩ := string_at hroom hbytes (hzero s rfl)
      rw [loadField, getInt_at hin, Option.bind_eq_bind, Option.bind_some,
        toInt_offset ((pktFind_lt hq).trans hsmall), pktFind_contents, hq]
      simp only [Option.map_some, Option.bind_eq_bind, Option.bind_some, hstrlen, hnew]
      rfl
    | _ => obtain ⟨bs, hbs, -⟩ := h; cases hbs
  | char number =>
    cases v with
    | char bs' =>
      obtain ⟨bs, hbs, hload⟩ := h
      have hvalue : bs = (bs' ++ List.replicate (atoi number) 0).take (atoi number) := by
        cases packet with
        | true =>
          obtain ⟨hlen', hbs⟩ := Option.ite_none_right_eq_some.1 hbs
          rw [← hlen', List.take_left' rfl, Option.some.inj hbs]
        | false =>
          obtain ⟨-, hbs⟩ := Option.ite_none_left_eq_some.1 hbs
          exact (Option.some.inj hbs).symm
      have hrange : copyOfRange (posAt r p).element ((posAt r p).offset + off)
          (int32 ((posAt r p).offset + off + (atoi number : ℕ))) = some bs :=
        (copyOfRange_at hin hlen).trans (congrArg some hload)
      rw [loadField, hnum number rfl, Option.bind_eq_bind, Option.bind_some, hrange, hvalue]
      rfl
    | _ => obtain ⟨bs, hbs, -⟩ := h; cases hbs

end Fields

/-! ## Packed fields -/

section Run
variable {C : ℕ} {structs : ℕ → List FieldType} {pk pk' : Packer} {ops : List Op} {k j : ℕ}

theorem exec_objs {op : Op} (h : exec C structs pk op = some pk') : pk.objs <+: pk'.objs := by
  cases op with
  | set k j v =>
    obtain ⟨o, ty, -, -, ⟨src, r, dest, offset, -, -, -, -, rfl⟩ | ⟨bs, -, rfl⟩⟩ := exec_set_cases h
    · exact List.prefix_refl _
    · exact List.prefix_refl _
  | alloc j =>
    obtain ⟨o, s, -, -, h⟩ := exec_alloc_cases h
    unfold allocElement at h
    simp only [Option.bind_eq_bind, Option.bind_eq_some_iff, Option.some.injEq] at h
    obtain ⟨_, -, rfl⟩ := h
    exact List.prefix_append _ _

/-- What the calls of a run that ends need. -/
def Allowed (pk : Packer) : Op → Prop
  | .set k j v => ∀ s, v = .string s →
      0 ∉ s ∧ ∃ o, pk.objs[k]? = some o ∧ o.fields[j]? = some .string
  | .alloc j => ∃ o s, pk.objs[0]? = some o ∧ o.fields[j]? = some (.list s)

theorem exec_allowed {op : Op} (h : exec C structs pk op = some pk') : Allowed pk op := by
  cases op with
  | set k j v =>
    rintro s rfl
    obtain ⟨o, ty, ho, hty, ⟨src, r, dest, offset, rfl, hv, hzero, -⟩ | ⟨bs, hbs, -⟩⟩ := exec_set_cases h
    · cases hv
      exact ⟨hzero, o, ho, hty⟩
    · cases ty <;> cases hbs
  | alloc j =>
    obtain ⟨o, s, ho, hty, -⟩ := exec_alloc_cases h
    exact ⟨o, s, ho, hty⟩

theorem Allowed.mono {op : Op} (h : Allowed pk op) (hpre : pk.objs <+: pk'.objs) : Allowed pk' op := by
  have hget : ∀ {i : ℕ} {o : Obj}, pk.objs[i]? = some o → pk'.objs[i]? = some o := by
    intro i o ho
    obtain ⟨rest, hrest⟩ := hpre
    rw [← hrest, List.getElem?_append_left (List.getElem?_eq_some_iff.1 ho).1]
    exact ho
  cases op with
  | set k j v =>
    intro s hs
    obtain ⟨hzero, o, ho, hty⟩ := h s hs
    exact ⟨hzero, o, hget ho, hty⟩
  | alloc j =>
    obtain ⟨o, s, ho, hty⟩ := h
    exact ⟨o, s, hget ho, hty⟩

theorem run_allowed (h : execAll C structs pk ops = some pk') :
    pk.objs <+: pk'.objs ∧ ∀ op ∈ ops, Allowed pk' op := by
  refine execAll_invariant (I := fun ops pk' => pk.objs <+: pk'.objs ∧ ∀ op ∈ ops, Allowed pk' op) []
    ?_ ⟨List.prefix_refl _, by simp⟩ h
  rintro ops pk1 op pk2 ⟨hpre, hall⟩ he
  refine ⟨hpre.trans (exec_objs he), ?_⟩
  intro op' hop'
  rcases List.mem_append.1 hop' with hop' | hop'
  · exact (hall op' hop').mono (exec_objs he)
  · rw [List.mem_singleton.1 hop']
    exact (exec_allowed he).mono (exec_objs he)

end Run

/-- A value that is stored as zeros. -/
def blank (packet : Bool) : FieldType → Value
  | .char n => .char (if packet then List.replicate n 0 else [])
  | ty => zeroValue ty

theorem elementValue_blank (packet : Bool) (ty : FieldType) :
    elementValue ty (blank packet ty) = zeroValue ty := by
  cases ty with
  | char n => cases packet <;> simp [blank, elementValue, zeroValue]
  | _ => rfl

theorem inPlace_blank (packet : Bool) {ty : FieldType} (hstr : ty ≠ .string) (hlist : ∀ s, ty ≠ .list s) :
    inPlace packet ty (blank packet ty) = some (List.replicate (fieldWidth packet ty) 0) := by
  cases ty with
  | char n => cases packet <;> simp [blank, inPlace, fieldWidth]
  | string => exact absurd rfl hstr
  | list s => exact absurd rfl (hlist s)
  | _ => rfl

/-- The state of a packet with its record in the first block. -/
structure Filled (id : ℕ) (S : Schema) (P : List RecordFieldType) (ops : List Op) (strs : List (Region ℕ))
    (pk : Packer) : Prop where
  rep : Rep id (fieldTypes P) ops strs pk
  linked : Linked (packStructs S) (fieldTypes P) ops pk
  unset : Unset ops pk
  small : pk.rope.length < 2 ^ 31
  allowed : ∀ op ∈ ops, Allowed pk op

theorem Packs.filled {C : ℕ} {S : Schema} {P : List RecordFieldType} {ops : List Op} {pk : Packer}
    (h : Packs C S P ops pk) (hfit : recordSize true (fieldTypes P) + 16 ≤ C) :
    ∃ id strs, Filled id S P ops strs pk := by
  obtain ⟨id, mem, pk0, hopen, hrun⟩ := h.run
  have hrep0 := rep_open hfit hopen
  obtain ⟨strs, hrep⟩ := rep_run hrep0 hrun
  have hlinked0 : Linked (packStructs S) (fieldTypes P) [] pk0 := linked_open hfit hopen
  have hlinked := hlinked0.run hrep0 hrun
  have hunset := (unset_open hfit hopen).run hrep0 hrun
  rw [List.nil_append] at hrep hlinked hunset
  exact ⟨id, strs, hrep, hlinked, hunset, execAll_small (openPacker_small hopen) hrun,
    (run_allowed hrun).2⟩

@[simp] theorem fieldTypes_getElem? (fields : List RecordFieldType) (j : ℕ) :
    (fieldTypes fields)[j]? = fields[j]?.map RecordFieldType.analysed := List.getElem?_map

theorem analysed_list {ty : RecordFieldType} (h : ∀ s, ty ≠ .list s) : ∀ s, ty.analysed ≠ .list s := by
  cases ty with
  | list s => exact absurd rfl (h s)
  | _ => exact fun s hs => by cases hs

section Filled
variable {C id k j : ℕ} {S : Schema} {P fields : List RecordFieldType} {ops : List Op}
  {strs : List (Region ℕ)} {pk : Packer} {o : Obj} {ty : RecordFieldType}

/-- Some value is stored in every field, and it stands for the packed one. -/
theorem Filled.stored (h : Filled id S P ops strs pk) {fty : FieldType} (ho : pk.objs[k]? = some o)
    (hty : o.fields[j]? = some fty) (hlist : ∀ s, fty ≠ .list s)
    (hset : fty = .string → (lastSet ops k j).isSome) :
    ∃ v, SlotHolds pk.rope strs o.packet (o.slot j) fty v ∧ elementValue fty v = packedValue ops k j fty ∧
      ∀ s, v = .string s → 0 ∉ s := by
  unfold packedValue
  cases hv : lastSet ops k j with
  | some v =>
    refine ⟨v, h.rep.vals k j o fty v ho hty hv, rfl, ?_⟩
    intro s hs
    exact (h.allowed _ (lastSet_mem hv) s hs).1
  | none =>
    have hstr : fty ≠ .string := by
      intro hstr
      have := hset hstr
      rw [hv] at this
      cases this
    refine ⟨blank o.packet fty, ?_, elementValue_blank o.packet fty, ?_⟩
    · have hbytes : ∃ bs, inPlace o.packet fty (blank o.packet fty) = some bs ∧
          pk.rope.load (o.slot j) (fieldWidth o.packet fty) = bs :=
        ⟨_, inPlace_blank o.packet hstr hlist, h.unset k j o fty ho hty hlist hv⟩
      unfold SlotHolds
      split
      · exact absurd rfl hstr
      · exact hbytes
    · intro s hs
      cases fty with
      | string => exact absurd rfl hstr
      | _ => cases hs

theorem Filled.loadField (h : Filled id S P ops strs pk) (ho : pk.objs[k]? = some o)
    (hfields : o.fields = fieldTypes fields) (hty : fields[j]? = some ty) (hnum : NumberOk ty)
    (hbool : ty ≠ .bool) (hlist : ∀ s, ty ≠ .list s) (hset : ty = .string → (lastSet ops k j).isSome) :
    loadField (sentRecord pk) (posAt (packetBaseSend pk.rope) o.overlay) (fieldOffset o.packet o.fields j) ty =
      some (Member.ofValue (packedValue ops k j ty.analysed)) := by
  have hoty : o.fields[j]? = some ty.analysed := by
    rw [hfields, fieldTypes_getElem?, hty, Option.map_some]
  have hstring : ty.analysed = .string → ty = .string := by
    cases ty with
    | string => exact fun _ => rfl
    | _ => exact fun hs => by cases hs
  obtain ⟨v, hholds, hvalue, hzero⟩ :=
    h.stored ho hoty (analysed_list hlist) fun hs => hset (hstring hs)
  have hin := h.rep.objs_in k o ho
  have hslot := hin.within (Obj.slot_within hoty)
  have hfinds : Finds pk.rope (packetBaseSend pk.rope) := Extends.finds (.same rfl)
  have hsent := hholds.frame hfinds (sameAt_send hslot)
    (fun g hg => sameAt_send (h.rep.strs_in g hg)) (List.Subset.refl strs)
  rw [← hvalue]
  exact loadField_holds hsent hslot.1 h.small (fun g hg => (h.rep.strs_in g hg).1) hzero hnum hbool hlist

end Filled

end Netp.Genf.Java
