import Netp.Genf.PacketRep

/-! # The record of a sent packet

Does the record built from a sent rope hold what the setters were given (`RoundTrips`)? It does if
the constructor has a case for every field (`covered`) and the record lies behind the headers, where
the constructor looks for it. Otherwise some assignment is read back wrong (`roundTrips_iff`).
-/

namespace Netp.Genf
open Netp.Lib
set_option autoImplicit false

/-! ## Round trips -/

/-- A member has the value `v`; of a string the member has the address. -/
def RecField.Holds (r : Rope) : RecField → Value → Prop
  | .bool b, .bool b' => b = b'
  | .int v, .int v' => v = v'
  | .uint v, .uint v' => v = v'
  | .long v, .long v' => v = v'
  | .ulong v, .ulong v' => v = v'
  | .str p, .string s => ∃ q, p = some q ∧ r.load q (s.length + 1) = s ++ [0]
  | .chr bs, .char bs' => bs = bs'
  | _, _ => False

/-- Member `j` has the value last set in field `j`; a list member leads to the first element. -/
def RecField.RoundTrips (r : Rope) (objs : List Obj) (ops : List Op) (j : ℕ) : RecField → Prop
  | .head h =>
      match firstElement objs j with
      | none => h = 0
      | some o => pktFind r h = some o.overlay
  | f => ∀ v, lastSet ops 0 j = some v → f.Holds r v

/-- Whatever the setters of packet `P` are given, the record has it after a send. -/
def RoundTrips (C : ℕ) (P : List FieldType) : Prop :=
  ∀ (structs : ℕ → List FieldType) (mem : Mem ℕ) (junk : Junk) (id : ℕ) (ops : List Op)
    (pk pk' : Packer), id < 2 ^ 32 → openPacker C mem id P = some pk →
    execAll C structs pk ops = some pk' →
    ∃ rec, dispatchPacket junk id P (packetBaseSend pk'.rope) = some rec ∧
      ∀ (j : ℕ) (ty : FieldType), P[j]? = some ty →
        ∃ f, rec j = some f ∧ f.RoundTrips (packetBaseSend pk'.rope) pk'.objs ops j

/-- The constructor of the record loads such a field. -/
def covered : FieldType → Bool
  | .uint => false
  | .ulong => false
  | .char n => n == 0
  | _ => true

/-! ## Reading back -/

section Decode
variable {r : Rope} {strs : List (Region ℕ)} {off j : ℕ} {junk : Junk}

theorem load_singleton {m : Mem ℕ} {b i : ℕ} {x : UInt8} (h : m.load b i 1 = [x]) : m b i = x := by
  have := congrArg (fun l : List UInt8 => l[0]?) h
  rw [Mem.load_getElem? _ _ _ _ _ (by omega)] at this
  exact Option.some.inj this

theorem decode_field (junk : Junk) (j : ℕ) {ty : FieldType} {v : Value} (hcov : covered ty = true)
    (h : SlotHolds r strs true (0, 16 + off) ty v) :
    ∃ f, recordPacketField junk r (some (0, 16)) off j ty = some f ∧ f.Holds r v := by
  unfold SlotHolds at h
  split at h
  · obtain ⟨p, hp, -, hbytes⟩ := h
    exact ⟨_, rfl, p, hp, hbytes⟩
  · obtain ⟨bs, hbs, hload⟩ := h
    unfold inPlace at hbs
    split at hbs
    case h_1 b _ =>
      refine ⟨_, rfl, ?_⟩
      have hb := load_singleton (hload.trans (Option.some.inj hbs).symm)
      show (r.mem 0 (16 + off) != 0) = b
      rw [hb]
      cases b
      · rfl
      · rfl
    case h_2 v _ =>
      refine ⟨_, rfl, ?_⟩
      have hv : r.u32 (0, 16 + off) = v.toNat := by
        have := congrArg ofLe (hload.trans (Option.some.inj hbs).symm)
        exact this.trans (ofLe_le_of_lt v.isLt)
      show BitVec.ofNat 32 (r.u32 (0, 16 + off)) = v
      rw [hv, BitVec.ofNat_toNat, BitVec.setWidth_eq]
    case h_4 v _ =>
      refine ⟨_, rfl, ?_⟩
      have hv : r.u64 (0, 16 + off) = v.toNat := by
        have := congrArg ofLe (hload.trans (Option.some.inj hbs).symm)
        exact this.trans (ofLe_le_of_lt v.isLt)
      show BitVec.ofNat 64 (r.u64 (0, 16 + off)) = v
      rw [hv, BitVec.ofNat_toNat, BitVec.setWidth_eq]
    case h_6 n bs' _ =>
      have hn : n = 0 := by simpa [covered] using hcov
      subst hn
      rw [if_pos rfl, Option.ite_none_right_eq_some] at hbs
      refine ⟨_, rfl, ?_⟩
      show [] = bs'
      exact (List.length_eq_zero_iff.1 hbs.1).symm
    all_goals simp [covered] at hcov hbs

end Decode

/-- What the setters left behind the headers is not touched by the send. -/
theorem sameAt_send {r : Rope} {g : Region ℕ} (h : InRope r g) :
    SameAt r (packetBaseSend r) g := by
  apply packetBaseSend_load r h.2.1
  intro h0
  have := h.2.2 h0
  omega

theorem pktFind_send (r : Rope) (l : ℕ) : pktFind (packetBaseSend r) l = pktFind r l := rfl

theorem recordSize_pos_of_field {P : List FieldType} {j : ℕ} {ty : FieldType}
    (h : P[j]? = some ty) (hw : 0 < fieldWidth true ty) : 0 < recordSize true P := by
  have h1 := fieldOffset_succ true h
  have hlt : j < P.length := (List.getElem?_eq_some_iff.1 h).1
  have h2 := fieldOffset_mono true P (show j + 1 ≤ P.length from hlt)
  unfold recordSize
  omega

theorem pktFind_record {r : Rope} {n : ℕ} (h : 16 + n ≤ r.len 0) (hn : 0 < n) :
    pktFind r 16 = some (0, 16) := by
  unfold pktFind
  rw [if_neg (by omega)]
  cases hb : r.blocks with
  | nil =>
    simp only [Rope.len, hb, List.getElem?_nil, Option.map_none, Option.getD_none] at h
    omega
  | cons t bs =>
    simp only [Rope.len, hb, List.getElem?_cons_zero, Option.map_some, Option.getD_some] at h
    unfold findFrom
    rw [if_pos (by omega)]

theorem rep_roundTrips {id : ℕ} {P : List FieldType} {ops : List Op} {strs : List (Region ℕ)}
    {pk : Packer} (hid : id < 2 ^ 32) (hcov : ∀ ty ∈ P, covered ty = true)
    (h : Rep id P ops strs pk) (junk : Junk) :
    ∃ rec, dispatchPacket junk id P (packetBaseSend pk.rope) = some rec ∧
      ∀ (j : ℕ) (ty : FieldType), P[j]? = some ty →
        ∃ f, rec j = some f ∧ f.RoundTrips (packetBaseSend pk.rope) pk.objs ops j := by
  have hmsg : (packetBaseSend pk.rope).u32 (0, 12) = id := by
    have h1 : (packetBaseSend pk.rope).load (0, 12) 4 = le 4 id :=
      (packetBaseSend_load pk.rope (by omega) (fun _ => le_refl _)).trans h.msgId
    exact (congrArg ofLe h1).trans (ofLe_le_of_lt (by omega))
  refine ⟨recordPacket junk (packetBaseSend pk.rope) 16 P, if_pos hmsg, ?_⟩
  intro j ty hty
  have hrec : recordPacket junk (packetBaseSend pk.rope) 16 P j = recordPacketField junk
      (packetBaseSend pk.rope) (pktFind (packetBaseSend pk.rope) 16) (fieldOffset true P j) j
      ty := by
    unfold recordPacket
    rw [hty]
  rw [hrec]
  have hc := hcov ty (List.mem_of_getElem? hty)
  have hfind : Finds pk.rope (packetBaseSend pk.rope) := Extends.finds (.same rfl)
  have hslot := sameAt_send ((h.objs_in 0 _ h.record).within (Obj.slot_within hty))
  have hvals : ∀ v, lastSet ops 0 j = some v →
      SlotHolds (packetBaseSend pk.rope) strs true (0, 16 + fieldOffset true P j) ty v := by
    intro v hv
    exact (h.vals 0 j _ ty v h.record hty hv).frame hfind hslot
      (fun g hg => sameAt_send (h.strs_in g hg)) (List.Subset.refl _)
  by_cases hw : fieldWidth true ty = 0
  · -- only `char(0)` has no bytes
    cases ty with
    | char n =>
      simp only [fieldWidth] at hw
      subst hw
      refine ⟨_, rfl, ?_⟩
      intro v hv
      have hholds := hvals v hv
      obtain ⟨f, hf, hfv⟩ := decode_field junk j hc hholds
      have : f = .chr ((List.range 0).map (junk.chr j)) := (Option.some.inj hf).symm
      rw [this] at hfv
      exact hfv
    | _ => simp [fieldWidth] at hw
  · have hrec16 : pktFind (packetBaseSend pk.rope) 16 = some (0, 16) :=
      hfind (pktFind_record h.first (recordSize_pos_of_field hty (by omega)))
    rw [hrec16]
    cases ty with
    | list s =>
      refine ⟨_, rfl, ?_⟩
      have hheads := (h.heads j s hty).frame hfind hslot rfl
      unfold HeadHolds at hheads
      unfold RecField.RoundTrips
      cases hf : firstElement pk.objs j with
      | none =>
        rw [hf] at hheads
        exact hheads
      | some o =>
        rw [hf] at hheads
        exact hheads.2
    | _ =>
      refine ⟨_, rfl, ?_⟩
      intro v hv
      obtain ⟨f, hf, hfv⟩ := decode_field junk j hc (hvals v hv)
      cases Option.some.inj hf
      exact hfv

/-! ## Assignments that are read back wrong -/

section Wrong
variable {C : ℕ} {P : List FieldType} {structs : ℕ → List FieldType} {junk : Junk}

theorem RoundTrips.field (h : RoundTrips C P) (junk : Junk) {mem : Mem ℕ} {ops : List Op} {pk pk' : Packer}
    (hopen : openPacker C mem 0 P = some pk) (hrun : execAll C structs pk ops = some pk')
    {j : ℕ} {ty : FieldType} (hty : P[j]? = some ty) :
    ∃ f, recordPacketField junk (packetBaseSend pk'.rope) (pktFind (packetBaseSend pk'.rope) 16)
        (fieldOffset true P j) j ty = some f ∧
      f.RoundTrips (packetBaseSend pk'.rope) pk'.objs ops j := by
  obtain ⟨rec, hrec, hall⟩ := h structs mem junk 0 ops pk pk' (by omega) hopen hrun
  obtain ⟨f, hf, hft⟩ := hall j ty hty
  unfold dispatchPacket at hrec
  rw [Option.ite_none_right_eq_some, Option.some.injEq] at hrec
  rw [← hrec.2] at hf
  unfold recordPacket at hf
  rw [hty] at hf
  exact ⟨f, hf, hft⟩

theorem exec_inPlace {pk : Packer} {o : Obj} {k j : ℕ} {ty : FieldType} {v : Value}
    {bs : List UInt8} (ho : pk.objs[k]? = some o) (hty : o.fields[j]? = some ty)
    (hbs : inPlace o.packet ty v = some bs) :
    exec C structs pk (.set k j v) = some { pk with rope := pk.rope.store (o.slot j) bs } := by
  have hset : setField C pk.rope o j ty v = some (pk.rope.store (o.slot j) bs) := by
    unfold setField
    split
    · rw [inPlace_string] at hbs
      cases hbs
    · rw [hbs, Option.map_some]
  simp [exec, ho, hty, hset]

theorem RoundTrips.inPlace (h : RoundTrips C P) (junk : Junk) {mem : Mem ℕ} {r : Rope} {p : Ptr}
    {tail : ℕ → Ptr}
    (hopen : openPacker C mem 0 P = some ⟨r, [⟨true, 0, p, P⟩], tail⟩) {j : ℕ} {ty : FieldType}
    {v : Value} {bs : List UInt8} (hty : P[j]? = some ty)
    (hbs : Genf.inPlace true ty v = some bs) :
    ∃ f, recordPacketField junk
        (packetBaseSend (r.store (p.1, p.2 + fieldOffset true P j) bs))
        (pktFind r 16) (fieldOffset true P j) j ty = some f ∧
      f.RoundTrips (packetBaseSend (r.store (p.1, p.2 + fieldOffset true P j) bs))
        [⟨true, 0, p, P⟩] [.set 0 j v] j := by
  have hrun : execAll C (fun _ => []) ⟨r, [⟨true, 0, p, P⟩], tail⟩ [.set 0 j v] =
      some ⟨r.store (p.1, p.2 + fieldOffset true P j) bs, [⟨true, 0, p, P⟩], tail⟩ := by
    unfold execAll
    rw [exec_inPlace (o := ⟨true, 0, p, P⟩) rfl hty hbs]
    rfl
  exact h.field junk hopen hrun hty

theorem lastSet_one (j : ℕ) (v : Value) : lastSet [.set 0 j v] 0 j = some v := by
  simp [lastSet]

theorem open_some (hC : 16 ≤ C) (hsize : recordSize true P + 64 ≤ 2 ^ 31) (mem : Mem ℕ) :
    ∃ r p, openPacker C mem 0 P = some ⟨r, [⟨true, 0, p, P⟩], fun _ => (0, 0)⟩ := by
  unfold openPacker
  by_cases hfit : recordSize true P + 16 ≤ C
  · rw [packetBaseOpen_first hfit, if_pos (by omega)]
    exact ⟨_, _, rfl⟩
  · rw [packetBaseOpen_second hC (by omega), if_pos (by omega)]
    exact ⟨_, _, rfl⟩

theorem signExtend_ne (x : BitVec 32) : x.signExtend 64 ≠ BitVec.ofNat 64 (2 ^ 32) := by
  intro h
  have h1 := congrArg BitVec.toInt h
  rw [BitVec.toInt_signExtend_of_le (by omega)] at h1
  have h2 : (BitVec.ofNat 64 (2 ^ 32)).toInt = 2 ^ 32 := by decide
  have h3 := BitVec.toInt_lt (x := x)
  omega

theorem RoundTrips.covered (h : RoundTrips C P) (hC : 16 ≤ C)
    (hsize : recordSize true P + 64 ≤ 2 ^ 31) : ∀ ty ∈ P, covered ty = true := by
  intro ty hmem
  obtain ⟨j, hty⟩ := List.mem_iff_getElem?.1 hmem
  obtain ⟨r, p, hopen⟩ := open_some (P := P) hC hsize fun _ _ => 0
  cases ty with
  | uint =>
    obtain ⟨f, hf, hft⟩ := h.inPlace ⟨fun _ => 0, fun _ _ => 0⟩ hopen hty
      (v := .uint 1) rfl
    cases Option.some.inj hf
    have := hft _ (lastSet_one j _)
    simp [RecField.Holds] at this
  | ulong =>
    obtain ⟨f, hf, hft⟩ := h.inPlace ⟨fun _ => 0, fun _ _ => 0⟩ hopen hty
      (v := .ulong (BitVec.ofNat 64 (2 ^ 32))) rfl
    obtain ⟨q, -, hq⟩ := Option.map_eq_some_iff.1 hf
    rw [← hq] at hft
    exact absurd (hft _ (lastSet_one j _)) (signExtend_ne _)
  | char n =>
    obtain ⟨f, hf, hft⟩ := h.inPlace ⟨fun _ => 0, fun _ _ => 0⟩ hopen hty
      (v := .char (List.replicate n 1)) (if_pos List.length_replicate)
    cases Option.some.inj hf
    have heq : (List.range n).map (fun _ => (0 : UInt8)) = List.replicate n 1 :=
      hft _ (lastSet_one j _)
    cases n with
    | zero => rfl
    | succ n =>
      have := congrArg (fun l : List UInt8 => l[0]?) heq
      simp [List.range_succ_eq_map, List.replicate_succ] at this
  | bool => rfl
  | int => rfl
  | long => rfl
  | string => rfl
  | list s => rfl

/-! ### A record in the second block -/

/-- The first block has the headers alone. -/
structure SecondBlock (r : Rope) : Prop where
  headers : r.len 0 = 16
  more : 1 < r.blocks.length
  record : 0 < r.len 1

/-- The constructor takes the head of the second block for the record. -/
theorem SecondBlock.pktFind {r : Rope} (h : SecondBlock r) : pktFind r 16 = some (1, 0) := by
  obtain ⟨h0, hmore, h1⟩ := h
  unfold Genf.pktFind
  rw [if_neg (by omega)]
  match hb : r.blocks with
  | [] => simp [hb] at hmore
  | [_] => simp [hb] at hmore
  | t :: u :: bs =>
    simp only [Rope.len, hb, List.getElem?_cons_zero, List.getElem?_cons_succ, Option.map_some,
      Option.getD_some] at h0 h1
    unfold findFrom
    rw [if_neg (by omega), h0]
    unfold findFrom
    rw [if_pos (by omega)]

theorem SecondBlock.pktFind_small {r : Rope} (h : SecondBlock r) {l : ℕ} (hl : 0 < l)
    (hl' : l < 16) : Genf.pktFind r l = some (0, l) := by
  have h0 := h.headers
  unfold Genf.pktFind
  rw [if_neg (by omega)]
  cases hb : r.blocks with
  | nil => simp [Rope.len, hb] at h0
  | cons t bs =>
    simp only [Rope.len, hb, List.getElem?_cons_zero, Option.map_some, Option.getD_some] at h0
    unfold findFrom
    rw [if_pos (by omega)]

theorem SecondBlock.nextLen {r : Rope} (h : SecondBlock r) :
    (packetBaseSend r).load (1, 0) 4 = le 4 (r.len 2) := packetBaseSend_nextLen r h.more

theorem SecondBlock.u32 {r : Rope} (h : SecondBlock r) (h2 : r.len 2 < 16) :
    (packetBaseSend r).u32 (1, 0) = r.len 2 := by
  unfold Rope.u32
  rw [h.nextLen]
  exact ofLe_le_of_lt (by omega)

theorem SecondBlock.store {r : Rope} (h : SecondBlock r) (p : Ptr) (bs : List UInt8) :
    SecondBlock (r.store p bs) := ⟨h.headers, h.more, h.record⟩

theorem allocBytes_second (c nb : ℕ) (mem : Mem ℕ) {n : ℕ} (hn : 0 < n) (hnb : 20 + n + nb < 2 ^ 31) :
    ∃ r p offset, allocBytes C ⟨[⟨C, 16⟩, ⟨c, n⟩], mem⟩ nb = some (r, p, offset) ∧
      SecondBlock r ∧ (r.len 2 = 0 ∨ r.len 2 = 4 + nb ∧ p.1 = 2) := by
  unfold allocBytes allocBytesBody Rope.available Rope.append
  by_cases hfit : nb ≤ c - n
  · simp only [List.getLast?_cons_cons, List.getLast?_singleton, Option.map_some, hfit, if_true]
    rw [if_pos (by simp [Rope.length]; omega)]
    refine ⟨_, _, _, rfl, ⟨rfl, by simp, ?_⟩, .inl rfl⟩
    simp [Rope.len]
    omega
  · have hfit' : ¬ packetBlockHeaderSize + nb ≤ c - n := by
      unfold packetBlockHeaderSize
      omega
    simp only [List.getLast?_cons_cons, List.getLast?_singleton, Option.map_some, hfit, hfit',
      if_false]
    rw [if_pos (by simp [Rope.length, packetBlockHeaderSize]; omega)]
    exact ⟨_, _, _, rfl, ⟨rfl, by simp, hn⟩, .inr ⟨rfl, rfl⟩⟩

theorem exists_first_field (h : 0 < recordSize true P) :
    ∃ j ty, P[j]? = some ty ∧ fieldOffset true P j = 0 ∧ 0 < fieldWidth true ty := by
  induction P with
  | nil => simp [recordSize, fieldOffset] at h
  | cons t P ih =>
    by_cases hw : fieldWidth true t = 0
    · have hsize : recordSize true (t :: P) = recordSize true P := by
        simp [recordSize, fieldOffset, hw]
      rw [hsize] at h
      obtain ⟨j, ty, hty, hoff, hpos⟩ := ih h
      refine ⟨j + 1, ty, hty, ?_, hpos⟩
      simp only [fieldOffset, if_true, Nat.zero_add] at hoff ⊢
      rw [List.take_succ_cons, List.map_cons, List.sum_cons, hw, hoff]
    · exact ⟨0, t, rfl, rfl, by omega⟩

theorem SecondBlock.low_byte {r : Rope} (h : SecondBlock r) (h2 : r.len 2 = 0) :
    (packetBaseSend r).mem 1 0 = 0 := by
  have hn := h.nextLen
  rw [h2] at hn
  have := congrArg (fun l : List UInt8 => l[0]?) hn
  rw [Rope.load, Mem.load_getElem? _ _ _ _ _ (by omega)] at this
  exact Option.some.inj this

theorem SecondBlock.u64 {r : Rope} (h : SecondBlock r) (h2 : r.len 2 = 0) :
    (packetBaseSend r).u64 (1, 0) % 256 = 0 := by
  have hn : (packetBaseSend r).mem.load 1 0 4 = [0, 0, 0, 0] := by
    have := h.nextLen
    rw [h2] at this
    exact this
  unfold Rope.u64 Rope.load
  rw [Mem.load_add _ _ _ 4 4, hn]
  simp only [List.cons_append, List.nil_append, ofLe, UInt8.toNat_zero]
  omega

theorem open_second (hC : 16 ≤ C) (hfit : C < recordSize true P + 16)
    (hsize : recordSize true P + 64 ≤ 2 ^ 31) (mem : Mem ℕ) :
    ∃ mem', openPacker C mem 0 P =
      some ⟨⟨[⟨C, 16⟩, ⟨max (4 + recordSize true P) C, 4 + recordSize true P⟩], mem'⟩,
        [⟨true, 0, (1, 4), P⟩], fun _ => (0, 0)⟩ := by
  unfold openPacker
  rw [packetBaseOpen_second hC hfit, if_pos (by omega)]
  exact ⟨_, rfl⟩

section Second
variable {blocks : List RopeBlock} {mem mem' : Mem ℕ} {c n j : ℕ} {tail : ℕ → Ptr}

theorem RoundTrips.second_inPlace (h : RoundTrips C P)
    (hopen : openPacker C mem 0 P =
      some ⟨⟨[⟨C, 16⟩, ⟨c, n⟩], mem'⟩, [⟨true, 0, (1, 4), P⟩], tail⟩) (hn : 0 < n)
    (hoff : fieldOffset true P j = 0) :
    P[j]? ≠ some .bool ∧ P[j]? ≠ some .int ∧ P[j]? ≠ some .long := by
  have hsecond : SecondBlock ⟨[⟨C, 16⟩, ⟨c, n⟩], mem'⟩ := ⟨rfl, by simp, hn⟩
  have hjunk : Junk := ⟨fun _ => 0, fun _ _ => 0⟩
  refine ⟨fun hty => ?_, fun hty => ?_, fun hty => ?_⟩
  · obtain ⟨f, hf, hft⟩ := h.inPlace hjunk hopen hty (v := .bool true) rfl
    rw [hsecond.pktFind, hoff] at hf
    cases Option.some.inj hf
    have hb := hft _ (lastSet_one j _)
    simp only [RecField.Holds, Nat.add_zero] at hb
    rw [(hsecond.store _ _).low_byte rfl] at hb
    cases hb
  · obtain ⟨f, hf, hft⟩ := h.inPlace hjunk hopen hty (v := .int 1) rfl
    rw [hsecond.pktFind, hoff] at hf
    cases Option.some.inj hf
    have hb := hft _ (lastSet_one j _)
    simp only [RecField.Holds, Nat.add_zero] at hb
    have hz : ∀ p bs, Rope.len ((⟨[⟨C, 16⟩, ⟨c, n⟩], mem'⟩ : Rope).store p bs) 2 = 0 :=
      fun _ _ => rfl
    rw [(hsecond.store _ _).u32 (by rw [hz]; omega), hz] at hb
    cases hb
  · obtain ⟨f, hf, hft⟩ := h.inPlace hjunk hopen hty (v := .long 1) rfl
    rw [hsecond.pktFind, hoff] at hf
    cases Option.some.inj hf
    have hb := hft _ (lastSet_one j _)
    simp only [RecField.Holds, Nat.add_zero] at hb
    have hlow := (hsecond.store (1, 4) (le 8 1)).u64 rfl
    have hnat := congrArg BitVec.toNat hb
    simp only [BitVec.toNat_ofNat] at hnat
    have : (1 : BitVec 64).toNat = 1 := rfl
    rw [this] at hnat
    omega

theorem RoundTrips.second_string (h : RoundTrips C P)
    (hopen : openPacker C mem 0 P =
      some ⟨⟨[⟨C, 16⟩, ⟨c, n⟩], mem'⟩, [⟨true, 0, (1, 4), P⟩], tail⟩) (hn : 0 < n)
    (hsmall : 32 + n < 2 ^ 31) (hoff : fieldOffset true P j = 0) : P[j]? ≠ some .string := by
  intro hty
  obtain ⟨r, dest, offset, ha, hs, h2⟩ :=
    allocBytes_second (C := C) c 2 mem' hn (by omega)
  have hrun : ∃ r', execAll C (fun _ => [])
      ⟨⟨[⟨C, 16⟩, ⟨c, n⟩], mem'⟩, [⟨true, 0, (1, 4), P⟩], tail⟩ [.set 0 j (.string [97])] =
      some ⟨r', [⟨true, 0, (1, 4), P⟩], tail⟩ ∧ SecondBlock r' ∧ r'.len 2 = r.len 2 := by
    refine ⟨(r.store (1, 4 + fieldOffset true P j) (le 4 offset)).store dest ([97] ++ [0]), ?_,
      (hs.store _ _).store _ _, rfl⟩
    simp [execAll, exec, hty, setField, ha, Obj.slot]
  obtain ⟨r', hrun, hs', hlen⟩ := hrun
  obtain ⟨f, hf, hft⟩ := h.field ⟨fun _ => 0, fun _ _ => 0⟩ hopen hrun hty
  rw [pktFind_send, hs'.pktFind, hoff] at hf
  cases Option.some.inj hf
  obtain ⟨q, hq, hbytes⟩ := hft _ (lastSet_one j _)
  simp only [Nat.add_zero] at hq
  rw [hs'.u32 (by rw [hlen]; omega), hlen] at hq
  rcases h2 with h2 | ⟨h2, -⟩
  · rw [h2] at hq
    cases hq
  · rw [h2, pktFind_send, hs'.pktFind_small (by omega) (by omega)] at hq
    cases Option.some.inj hq
    have hfirst := packetBaseSend_firstLen r'
    rw [hs'.headers, Rope.load, Mem.load_add _ _ _ 2 2] at hfirst
    have htail := congrArg (List.drop 2) hfirst
    rw [List.drop_left' (by simp)] at htail
    have := htail.symm.trans hbytes
    simp [le] at this

theorem RoundTrips.second_list (h : RoundTrips C P)
    (hopen : openPacker C mem 0 P =
      some ⟨⟨[⟨C, 16⟩, ⟨c, n⟩], mem'⟩, [⟨true, 0, (1, 4), P⟩], tail⟩) (hn : 0 < n)
    (hsmall : 32 + n < 2 ^ 31) (hoff : fieldOffset true P j = 0) (s : ℕ) :
    P[j]? ≠ some (.list s) := by
  intro hty
  obtain ⟨r, elov, offset, ha, hs, h2⟩ :=
    allocBytes_second (C := C) c 4 mem' hn (by omega)
  have hrun : ∃ r' t, execAll C (fun _ => [])
      ⟨⟨[⟨C, 16⟩, ⟨c, n⟩], mem'⟩, [⟨true, 0, (1, 4), P⟩], tail⟩ [.alloc j] =
      some ⟨r', [⟨true, 0, (1, 4), P⟩, ⟨false, j, elov, []⟩], t⟩ ∧ r'.blocks = r.blocks := by
    have hsize : recordSize false [] = 4 := rfl
    simp only [execAll, exec, List.getElem?_cons_zero, Option.bind_some, hty, allocElement, hsize,
      ha, Option.bind_eq_bind]
    refine ⟨_, _, rfl, ?_⟩
    split
    · rfl
    · rfl
  obtain ⟨r', t, hrun, hblocks⟩ := hrun
  obtain ⟨f, hf, hft⟩ := h.field ⟨fun _ => 0, fun _ _ => 0⟩ hopen hrun hty
  have hlen : ∀ b, r'.len b = r.len b := by
    intro b
    unfold Rope.len
    rw [hblocks]
  have hs' : SecondBlock r' :=
    ⟨by rw [hlen]; exact hs.headers, by rw [hblocks]; exact hs.more, by rw [hlen]; exact hs.record⟩
  rw [pktFind_send, hs'.pktFind, hoff] at hf
  cases Option.some.inj hf
  have hfirst : firstElement [⟨true, 0, (1, 4), P⟩, ⟨false, j, elov, []⟩] j =
      some ⟨false, j, elov, []⟩ := by
    simp [firstElement]
  simp only [RecField.RoundTrips, hfirst, Nat.add_zero] at hft
  rw [hs'.u32 (by rw [hlen]; omega), hlen] at hft
  rcases h2 with h2 | ⟨h2, hp⟩
  · rw [h2] at hft
    cases hft
  · have hfind : pktFind (packetBaseSend r') (4 + 4) = some (0, 8) :=
      hs'.pktFind_small (by omega) (by omega)
    rw [h2, hfind] at hft
    rw [← Option.some.inj hft] at hp
    cases hp

end Second

/-- In the second block the first field is read where the length of the third one stands. -/
theorem RoundTrips.first_block (h : RoundTrips C P) (hC : 16 ≤ C)
    (hsize : recordSize true P + 64 ≤ 2 ^ 31) : recordSize true P + 16 ≤ C := by
  by_contra hfit
  obtain ⟨j, ty, hty, hoff, hw⟩ := exists_first_field (P := P) (by omega)
  obtain ⟨mem', hopen⟩ := open_second (P := P) hC (by omega) hsize fun _ _ => 0
  have hc := h.covered hC hsize ty (List.mem_of_getElem? hty)
  have hplace := h.second_inPlace hopen (by omega) hoff
  cases ty with
  | bool => exact hplace.1 hty
  | int => exact hplace.2.1 hty
  | uint => cases hc
  | long => exact hplace.2.2 hty
  | ulong => cases hc
  | string => exact h.second_string hopen (by omega) (by omega) hoff hty
  | char n =>
    simp only [Genf.covered, beq_iff_eq] at hc
    simp [fieldWidth, hc] at hw
  | list s => exact h.second_list hopen (by omega) (by omega) hoff s hty

end Wrong

/-- A packet round-trips exactly if its record has no `uint`, `ulong` or nonempty `char` field and
fits behind the headers in the first block. -/
theorem roundTrips_iff {C : ℕ} {P : List FieldType} (hC : 16 ≤ C)
    (hsize : recordSize true P + 64 ≤ 2 ^ 31) :
    RoundTrips C P ↔ (∀ ty ∈ P, covered ty = true) ∧ recordSize true P + 16 ≤ C := by
  constructor
  · intro h
    exact ⟨h.covered hC hsize, h.first_block hC hsize⟩
  · intro ⟨hcov, hfit⟩ structs mem junk id ops pk pk' hid hopen hrun
    obtain ⟨strs, hrep⟩ := rep_run (rep_open hfit hopen) hrun
    exact rep_roundTrips hid hcov hrep junk

theorem roundTrips_string_list : RoundTrips 4096 [.bool, .string, .list 0] :=
  (roundTrips_iff (by decide) (by decide)).2 ⟨by decide, by decide⟩

/-- A packet with one `uint` field. -/
theorem uint_not_roundTrips : ¬ RoundTrips 4096 [.uint] := by
  intro h
  have hopen : openPacker 4096 (fun _ _ => 0) 1 [.uint] = some _ := rfl
  obtain ⟨rec, hrec, hall⟩ := h (fun _ => []) (fun _ _ => 0) ⟨fun _ => 0, fun _ _ => 0⟩ 1
    [.set 0 0 (.uint 7)] _ _ (by decide) hopen rfl
  obtain ⟨f, hf, hft⟩ := hall 0 .uint rfl
  unfold dispatchPacket at hrec
  rw [Option.ite_none_right_eq_some, Option.some.injEq] at hrec
  rw [← hrec.2] at hf
  cases Option.some.inj hf
  have := hft (.uint 7) rfl
  cases this

end Netp.Genf
