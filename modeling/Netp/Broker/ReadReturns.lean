import Netp.Broker.ReadStruct
import Netp.Genf.Parse
import Mathlib.Tactic

/-! # When the broker reads a description to the end

`readStruct` goes through the records of a list in the order of the links, whatever the levels: every
record takes one from the number of fields still asked for, and one of a list field adds the number of its
struct. So whether it returns is a property of that one number along the links (`Fed`,
`readStruct_returns`).
-/

namespace Netp.Broker.Influx
open Netp.Lib Netp.Genf
set_option autoImplicit false
variable {r : Rope} {p overlay : Ptr} {off d k n : ℕ} {it it' : StructRecord}

/-! ## Strings -/

/-- There is a zero byte from here on, in the same block. -/
def Terminated (r : Rope) (p : Ptr) : Prop := ∃ k, p.2 + k < r.len p.1 ∧ r.mem p.1 (p.2 + k) = 0

/-- `pktFind` finds a string at this offset, and it ends. -/
def StringAt (r : Rope) (off : ℕ) : Prop := ∃ p, pktFind r off = some p ∧ Terminated r p

theorem grows_strlen (p : Ptr) : Grows fun n => strlen r n p := by
  intro n
  induction n generalizing p with
  | zero =>
    intro a h
    cases h
  | succ n ih =>
    simp only [strlen]
    split
    · split
      · exact .refl _
      · exact (ih (p.1, p.2 + 1)).map _
    · exact .refl _

theorem strlen_returns : Returns (fun n => strlen r n p) ↔ Terminated r p := by
  constructor
  · rintro ⟨len, n, h⟩
    induction n generalizing p len with
    | zero => cases h
    | succ n ih =>
      simp only [strlen] at h
      obtain ⟨hin, h⟩ := Option.ite_none_right_eq_some.1 h
      split at h
      · next h0 => exact ⟨0, hin, h0⟩
      · obtain ⟨j, hj, -⟩ := Option.map_eq_some_iff.1 h
        obtain ⟨k, hlt, hk⟩ := ih j hj
        rw [Nat.add_assoc, Nat.add_comm 1 k] at hlt hk
        exact ⟨k + 1, hlt, hk⟩
  · rintro ⟨k, hlt, hk⟩
    induction k generalizing p with
    | zero => exact ⟨0, 1, (if_pos hlt).trans (if_pos hk)⟩
    | succ k ih =>
      have hin : p.2 < r.len p.1 := by omega
      by_cases h0 : r.mem p.1 p.2 = 0
      · exact ⟨0, 1, (if_pos hin).trans (if_pos h0)⟩
      · rw [Nat.add_comm k 1, ← Nat.add_assoc] at hlt hk
        obtain ⟨len, n, hn⟩ := ih (p := (p.1, p.2 + 1)) hlt hk
        refine ⟨len + 1, n + 1, ?_⟩
        simp only [strlen, if_pos hin, if_neg h0, hn, Option.map_some]

theorem grows_cString (p : Ptr) : Grows fun n => cString r n p := (grows_strlen p).map (r.load p)

theorem cString_returns : Returns (fun n => cString r n p) ↔ Terminated r p := by
  unfold cString
  rw [returns_map, strlen_returns]

/-! ## Records along the links -/

/-- `pktFind` finds the record of a field here, all of it in one block. -/
def RecordAt (r : Rope) (off : ℕ) (overlay : Ptr) : Prop :=
  pktFind r off = some overlay ∧ overlay.2 + recordSize false packetField ≤ r.len overlay.1

theorem RecordAt.load (ho : RecordAt r off overlay) :
    StructRecord.load r packetField off = some (.loaded r packetField overlay off) :=
  StructRecord.load_iff.2 ⟨List.cons_ne_nil _ _, overlay, ho.1, ho.2, rfl⟩

/-- The iterator is at `off`; 0 is the end. -/
def At (r : Rope) (off : ℕ) (it : StructRecord) : Prop := it.At r packetField off

theorem At.valid_iff (h : At r off it) : it.valid = true ↔ off ≠ 0 := by
  rw [← h.1]
  simp [StructRecord.valid]

theorem At.found (h : At r off it) (hoff : off ≠ 0) : ∃ overlay, RecordAt r off overlay := by
  obtain ⟨-, overlay, ho, hin, -⟩ := StructRecord.load_iff.1 (h.2 hoff)
  exact ⟨overlay, ho, hin⟩

theorem exists_at (h : off = 0 ∨ ∃ overlay, RecordAt r off overlay) (junk : StructRecord) :
    ∃ it, StructRecord.new junk r packetField off = some it ∧ At r off it := by
  unfold StructRecord.new
  split
  · next h0 => exact ⟨_, rfl, h0.symm, fun hne => absurd h0 hne⟩
  · next h0 =>
    obtain ⟨overlay, ho⟩ := h.resolve_left h0
    exact ⟨_, ho.load, rfl, fun _ => ho.load⟩

theorem new_at {junk : StructRecord} (h : StructRecord.new junk r packetField off = some it) :
    At r off it := by
  unfold StructRecord.new at h
  split at h
  · next h0 =>
    rw [← Option.some.inj h]
    exact ⟨h0.symm, fun hne => absurd h0 hne⟩
  · obtain ⟨-, overlay, -, -, rfl⟩ := StructRecord.load_iff.1 h
    exact ⟨rfl, fun _ => h⟩

theorem At.eq_loaded (h : At r off it) (ho : RecordAt r off overlay) (hoff : off ≠ 0) :
    it = .loaded r packetField overlay off :=
  Option.some.inj ((h.2 hoff).symm.trans ho.load)

/-- `advance` goes on to the next link as the constructor does to the first. -/
theorem At.advance_eq (h : At r off it) (ho : RecordAt r off overlay) (hoff : off ≠ 0) :
    it.advance r packetField = StructRecord.new it r packetField (r.u32 overlay) := by
  have hnext : it.next = r.u32 overlay := by
    rw [h.eq_loaded ho hoff]
    rfl
  unfold StructRecord.advance StructRecord.new
  rw [hnext]

/-- What the record at `overlay` says of a field, but for its name. -/
def fieldData (r : Rope) (overlay : Ptr) (name : List UInt8) : FieldData where
  name := name
  tag := r.mem overlay.1 (overlay.2 + 8) != 0
  type := intOf (r.u32 (overlay.1, overlay.2 + 9))
  size := intOf (r.u32 (overlay.1, overlay.2 + 13))
  offset := intOf (r.u32 (overlay.1, overlay.2 + 17))

theorem At.collect_eq (h : At r off it) (ho : RecordAt r off overlay) (hoff : off ≠ 0) (n : ℕ) :
    collect r n it = (pktFind r (r.u32 (overlay.1, overlay.2 + 4))).bind fun p =>
      (cString r n p).map (fieldData r overlay) := by
  rw [h.eq_loaded ho hoff]
  -- where the members of a `PacketField` lie
  have hname : fieldOffset false packetField 0 = 4 := by decide
  have htag : fieldOffset false packetField 1 = 8 := by decide
  have htype : fieldOffset false packetField 2 = 9 := by decide
  have hsize : fieldOffset false packetField 3 = 13 := by decide
  have hoffset : fieldOffset false packetField 4 = 17 := by decide
  have hfields : packetField[0]? = some .string ∧ packetField[1]? = some .bool ∧
      packetField[2]? = some .int ∧ packetField[3]? = some .int ∧ packetField[4]? = some .int := by decide
  unfold collect StructRecord.loaded
  simp only [hfields, Option.bind_some, StructRecord.field, hname, htag, htype, hsize, hoffset]
  cases pktFind r (r.u32 (overlay.1, overlay.2 + 4)) with
  | none => rfl
  | some p => rfl

theorem grows_collect (it : StructRecord) : Grows fun n => collect r n it := by
  unfold collect
  split
  · exact (grows_cString _).map _
  · exact .const none

theorem At.collect_returns (h : At r off it) (ho : RecordAt r off overlay) (hoff : off ≠ 0) :
    Returns (fun n => collect r n it) ↔ StringAt r (r.u32 (overlay.1, overlay.2 + 4)) := by
  simp only [h.collect_eq ho hoff]
  rw [returns_bind (.const _) fun p => (grows_cString p).map _]
  simp only [yields_const, returns_map, cString_returns, StringAt]

/-! ## The number of fields asked for -/

/-- How many fields of a list's struct the record at `overlay` says will follow. -/
def announced (r : Rope) (overlay : Ptr) : ℕ :=
  if (fieldData r overlay []).type = PacketFieldType.list.code then (fieldData r overlay []).size.toNat
  else 0

theorem At.collected (h : At r off it) (ho : RecordAt r off overlay) (hoff : off ≠ 0)
    {data : FieldData} (hd : Yields (fun n => collect r n it) data) :
    announced r overlay = if data.type = PacketFieldType.list.code then data.size.toNat else 0 := by
  obtain ⟨n, hn : collect r n it = some data⟩ := hd
  rw [h.collect_eq ho hoff] at hn
  obtain ⟨p, -, hn⟩ := Option.bind_eq_some_iff.1 hn
  obtain ⟨name, -, rfl⟩ := Option.map_eq_some_iff.1 hn
  rfl

/-- From `off` on, within `k` records, the links come to 0 or the number of fields asked for to 0, through
records that `pktFind` finds, whole, and that have a name. -/
def FedIn (r : Rope) : ℕ → ℕ → ℕ → Prop
  | 0, _, _ => False
  | k + 1, asked, off => off = 0 ∨ ∃ overlay, RecordAt r off overlay ∧
      (asked = 0 ∨ StringAt r (r.u32 (overlay.1, overlay.2 + 4)) ∧
        FedIn r k (asked - 1 + announced r overlay) (r.u32 overlay))

def Fed (r : Rope) (asked off : ℕ) : Prop := ∃ k, FedIn r k asked off

theorem FedIn.found (h : FedIn r k d off) : off = 0 ∨ ∃ overlay, RecordAt r off overlay := by
  cases k with
  | zero => exact h.elim
  | succ k =>
    obtain h0 | ⟨overlay, ho, -⟩ := h
    · exact .inl h0
    · exact .inr ⟨overlay, ho⟩

theorem At.fed (h : At r off it) : Fed r 0 off := by
  by_cases h0 : off = 0
  · exact ⟨1, .inl h0⟩
  · obtain ⟨overlay, ho⟩ := h.found h0
    exact ⟨1, .inr ⟨overlay, ho, .inl rfl⟩⟩

theorem fed_next (ho : RecordAt r off overlay)
    (hs : StringAt r (r.u32 (overlay.1, overlay.2 + 4)))
    (h : Fed r (d + announced r overlay) (r.u32 overlay)) : Fed r (d + 1) off := by
  obtain ⟨k, hk⟩ := h
  exact ⟨k + 1, .inr ⟨overlay, ho, .inr ⟨hs, hk⟩⟩⟩

/-! ## `readStruct` -/

theorem grows_readStruct (numFields : ℤ) (it : StructRecord) :
    Grows fun n => readStruct r n numFields it := by
  intro n
  induction n generalizing numFields it with
  | zero =>
    intro x h
    cases h
  | succ n ih =>
    simp only [readStruct]
    split
    · refine (grows_collect it n).bind fun data => (Below.refl _).bind fun it' => Below.bind ?_ ?_
      · split
        · exact ih data.size it'
        · exact .refl _
      · exact fun sub => (ih (numFields - 1) sub.2).map _
    · exact .refl _

theorem readStruct_yields {numFields : ℤ} {x : List Field × StructRecord}
    (hturn : 0 < numFields ∧ it.valid = true) :
    Yields (fun n => readStruct r n numFields it) x ↔
      ∃ data, Yields (fun n => collect r n it) data ∧ ∃ it', it.advance r packetField = some it' ∧
        ∃ sub, Yields (fun n => if data.type = PacketFieldType.list.code then
            readStruct r n data.size it' else some ([], it')) sub ∧
          ∃ rest, Yields (fun n => readStruct r n (numFields - 1) sub.2) rest ∧
            (.mk data sub.1 :: rest.1, rest.2) = x := by
  have hsub : ∀ (data : FieldData) it', Grows fun n => if data.type = PacketFieldType.list.code then
      readStruct r n data.size it' else some ([], it') := by
    intro data it'
    split
    · exact grows_readStruct data.size it'
    · exact .const _
  have hrest : ∀ (data : FieldData) (sub : List Field × StructRecord), Grows fun n =>
      (readStruct r n (numFields - 1) sub.2).map fun rest => (Field.mk data sub.1 :: rest.1, rest.2) :=
    fun data sub => (grows_readStruct (numFields - 1) sub.2).map _
  rw [yields_succ (grows_readStruct numFields it)]
  simp only [readStruct, if_pos hturn]
  rw [yields_bind (grows_collect it) fun data => (Grows.const _).bind fun it' =>
    (hsub data it').bind (hrest data)]
  refine exists_congr fun data => and_congr_right fun _ => ?_
  rw [yields_bind (.const _) fun it' => (hsub data it').bind (hrest data)]
  refine exists_congr fun it' => and_congr yields_const ?_
  rw [yields_bind (hsub data it') (hrest data)]
  exact exists_congr fun sub => and_congr_right fun _ => yields_map

theorem readStruct_stops {numFields : ℤ} (hturn : ¬ (0 < numFields ∧ it.valid = true)) (n : ℕ) :
    readStruct r (n + 1) numFields it = some ([], it) := by
  simp only [readStruct, if_neg hturn]

theorem FedIn.readStruct {numFields : ℤ} {e : ℕ} (hat : At r off it)
    (h : FedIn r k (numFields.toNat + e) off) :
    ∃ x off' k', k' ≤ k ∧ Yields (fun n => readStruct r n numFields it) x ∧ At r off' x.2 ∧
      FedIn r k' e off' := by
  induction k using Nat.strong_induction_on generalizing numFields e off it with
  | _ k ih =>
    by_cases hturn : 0 < numFields ∧ it.valid = true
    · obtain ⟨k, rfl⟩ : ∃ k', k = k' + 1 := by
        cases k with
        | zero => exact h.elim
        | succ k => exact ⟨k, rfl⟩
      have hoff := hat.valid_iff.1 hturn.2
      obtain ⟨overlay, ho, h⟩ := h.resolve_left hoff
      obtain ⟨hs, h⟩ := h.resolve_left (by omega)
      obtain ⟨data, hdata⟩ := (hat.collect_returns ho hoff).2 hs
      obtain ⟨it', hadv, hat'⟩ := exists_at h.found it
      rw [← hat.advance_eq ho hoff] at hadv
      rw [hat.collected ho hoff hdata] at h
      -- the fields of the list's struct, if it is a list
      obtain ⟨sub, off1, k1, hk1, hsub, hat1, h1⟩ : ∃ sub off1 k1, k1 ≤ k ∧
          Yields (fun n => if data.type = PacketFieldType.list.code then
            Influx.readStruct r n data.size it' else some ([], it')) sub ∧ At r off1 sub.2 ∧
          FedIn r k1 ((numFields - 1).toNat + e) off1 := by
        split at h
        · next hlist =>
          simp only [if_pos hlist]
          refine ih k (Nat.lt_succ_self k) hat' ?_
          have harith : data.size.toNat + ((numFields - 1).toNat + e) =
              numFields.toNat + e - 1 + data.size.toNat := by omega
          rw [harith]
          exact h
        · next hlist =>
          simp only [if_neg hlist]
          refine ⟨([], it'), _, k, le_refl k, yields_const.2 rfl, hat', ?_⟩
          have harith : (numFields - 1).toNat + e = numFields.toNat + e - 1 + 0 := by omega
          rw [harith]
          exact h
      obtain ⟨rest, off2, k2, hk2, hrest, hat2, h2⟩ := ih k1 (by omega) hat1 h1
      exact ⟨_, off2, k2, by omega,
        (readStruct_yields hturn).2 ⟨data, hdata, it', hadv, sub, hsub, rest, hrest, rfl⟩, hat2, h2⟩
    · refine ⟨([], it), off, k, le_refl k, ⟨1, readStruct_stops hturn 0⟩, hat, ?_⟩
      rw [not_and_or] at hturn
      rcases hturn with hnum | hvalid
      · have h0 : numFields.toNat = 0 := by omega
        rwa [h0, Nat.zero_add] at h
      · have h0 : off = 0 := by
          by_contra hne
          exact hvalid (hat.valid_iff.2 hne)
        cases k with
        | zero => exact h.elim
        | succ k => exact .inl h0

theorem fed_of_readStruct {numFields : ℤ} {x : List Field × StructRecord} (hat : At r off it)
    (h : readStruct r n numFields it = some x) :
    ∃ off', At r off' x.2 ∧ ∀ e, Fed r e off' → Fed r (numFields.toNat + e) off := by
  induction n generalizing numFields it off x with
  | zero => cases h
  | succ n ih =>
    by_cases hturn : 0 < numFields ∧ it.valid = true
    · simp only [readStruct, if_pos hturn, Option.bind_eq_some_iff, Option.map_eq_some_iff] at h
      obtain ⟨data, hdata, it', hadv, sub, hsub, rest, hrest, rfl⟩ := h
      have hoff := hat.valid_iff.1 hturn.2
      obtain ⟨overlay, ho⟩ := hat.found hoff
      have hs := (hat.collect_returns ho hoff).1 ⟨data, n, hdata⟩
      have hann := hat.collected ho hoff ⟨n, hdata⟩
      rw [hat.advance_eq ho hoff] at hadv
      obtain ⟨off1, hat1, h1⟩ : ∃ off1, At r off1 sub.2 ∧ ∀ e, Fed r e off1 →
          Fed r (announced r overlay + e) (r.u32 overlay) := by
        rw [hann]
        split at hsub
        · next hlist =>
          rw [if_pos hlist]
          exact ih (new_at hadv) hsub
        · next hlist =>
          rw [if_neg hlist]
          obtain rfl := Option.some.inj hsub
          refine ⟨_, new_at hadv, fun e he => ?_⟩
          rwa [Nat.zero_add]
      obtain ⟨off2, hat2, h2⟩ := ih hat1 hrest
      refine ⟨off2, hat2, fun e he => ?_⟩
      have harith : numFields.toNat + e = (numFields - 1).toNat + e + 1 := by omega
      rw [harith]
      refine fed_next ho hs ?_
      rw [Nat.add_comm]
      exact h1 _ (h2 e he)
    · rw [readStruct_stops hturn, Option.some.injEq] at h
      subst h
      refine ⟨off, hat, fun e he => ?_⟩
      rw [not_and_or] at hturn
      rcases hturn with hnum | hvalid
      · have h0 : numFields.toNat = 0 := by omega
        rwa [h0, Nat.zero_add]
      · have h0 : off = 0 := by
          by_contra hne
          exact hvalid (hat.valid_iff.2 hne)
        exact ⟨1, .inl h0⟩

theorem readStruct_returns {numFields : ℤ} (hat : At r off it) :
    Returns (fun n => readStruct r n numFields it) ↔ Fed r numFields.toNat off := by
  constructor
  · rintro ⟨x, n, h⟩
    obtain ⟨off', hat', h⟩ := fed_of_readStruct hat h
    exact h 0 hat'.fed
  · rintro ⟨k, h⟩
    obtain ⟨x, -, -, -, hx, -⟩ := FedIn.readStruct (e := 0) hat h
    exact ⟨x, hx⟩

/-! ## `recvPacketType` -/

/-- A `PacketType` that can be read: its name is found, and the links from its list feed the reader. -/
def Described (r : Rope) : Prop :=
  ∃ overlay, pktFind r headSize = some overlay ∧ StringAt r (r.u32 overlay) ∧
    Fed r (intOf (r.u32 (overlay.1, overlay.2 + 8))).toNat (r.u32 (overlay.1, overlay.2 + 12))

section PacketType
variable (mem : Junk) (junk : StructRecord)

theorem recvPacketType_eq (ho : pktFind r headSize = some overlay) (n : ℕ) :
    recvPacketType junk r n (recordPacket mem r headSize packetType) =
      (pktFind r (r.u32 overlay)).bind fun name => (cString r n name).bind fun name =>
        (StructRecord.new junk r packetField (r.u32 (overlay.1, overlay.2 + 12))).bind fun fieldIter =>
          (readStruct r n (intOf (r.u32 (overlay.1, overlay.2 + 8))) fieldIter).map fun s =>
            ⟨name, intOf (r.u32 (overlay.1, overlay.2 + 4)), s.1⟩ := by
  have hname : fieldOffset true packetType 0 = 0 := by decide
  have hnumId : fieldOffset true packetType 1 = 4 := by decide
  have hnumFields : fieldOffset true packetType 2 = 8 := by decide
  have hhead : fieldOffset true packetType 3 = 12 := by decide
  have hfields : packetType[0]? = some .string ∧ packetType[1]? = some .int ∧
      packetType[2]? = some .int ∧ packetType[3]? = some (.list 0) := by decide
  unfold recvPacketType recordPacket
  simp only [hfields, recordPacketField, ho, Option.map_some, hname, hnumId, hnumFields, hhead,
    Nat.add_zero]
  cases pktFind r (r.u32 overlay) with
  | none => rfl
  | some p => rfl

theorem recvPacketType_null (ho : pktFind r headSize = none) (n : ℕ) :
    recvPacketType junk r n (recordPacket mem r headSize packetType) = none := by
  have hfields : packetType[0]? = some .string := rfl
  unfold recvPacketType recordPacket
  simp only [hfields, recordPacketField, ho, Option.map_none]

theorem grows_recvPacketType (pkt : ℕ → Option RecField) : Grows fun n => recvPacketType junk r n pkt := by
  unfold recvPacketType
  split
  · exact (grows_cString _).bind fun name => (Grows.const _).bind fun it => (grows_readStruct _ it).map _
  · exact .const none

theorem recvPacketType_returns :
    Returns (fun n => recvPacketType junk r n (recordPacket mem r headSize packetType)) ↔ Described r := by
  cases ho : pktFind r headSize with
  | none =>
    simp only [recvPacketType_null mem junk ho, returns_const, Described, ho]
    simp
  | some overlay =>
    have hread : ∀ (name : List UInt8) it, Grows fun n =>
        (readStruct r n (intOf (r.u32 (overlay.1, overlay.2 + 8))) it).map fun s =>
          Struct.mk name (intOf (r.u32 (overlay.1, overlay.2 + 4))) s.1 :=
      fun name it => (grows_readStruct _ it).map _
    simp only [recvPacketType_eq mem junk ho]
    rw [returns_bind (.const _) fun p => (grows_cString p).bind fun name =>
      (Grows.const _).bind (hread name)]
    constructor
    · rintro ⟨p, hp, h⟩
      rw [returns_bind (grows_cString p) fun name => (Grows.const _).bind (hread name)] at h
      obtain ⟨name, hname, h⟩ := h
      rw [returns_bind (.const _) (hread name)] at h
      obtain ⟨it, hit, h⟩ := h
      rw [yields_const] at hp hit
      rw [returns_map, readStruct_returns (new_at hit)] at h
      exact ⟨overlay, ho, ⟨p, hp, cString_returns.1 ⟨name, hname⟩⟩, h⟩
    · rintro ⟨overlay', ho', ⟨p, hp, hend⟩, h⟩
      obtain rfl := Option.some.inj (ho.symm.trans ho')
      obtain ⟨name, hname⟩ := cString_returns.2 hend
      obtain ⟨k, hk⟩ := h
      obtain ⟨it, hit, hat⟩ := exists_at hk.found junk
      refine ⟨p, yields_const.2 hp, ?_⟩
      rw [returns_bind (grows_cString p) fun name => (Grows.const _).bind (hread name)]
      refine ⟨name, hname, ?_⟩
      rw [returns_bind (.const _) (hread name)]
      refine ⟨it, yields_const.2 hit, ?_⟩
      rw [returns_map, readStruct_returns hat]
      exact ⟨k, hk⟩

end PacketType

end Netp.Broker.Influx
