import Netp.Broker.ReadReturns
import Netp.Broker.Stash
import Netp.Lib.Follow

/-! # When the broker is done with a packet

`stashStruct` returns exactly if the links from the packet's list field come to no offset twice, each offset
on the way is found, all that is read there is in the block, and every string of the fields written is found and
ends in its block (`stashStruct_returns`). With
`readStruct_returns` this says for every sequence of packets when the broker gets to its end
(`receiveAll_returns_iff`). A packet with a list that leads back to itself is never done (`cyclic_list`).
-/

namespace Netp.Broker.Influx
open Netp.Lib Netp.Genf
set_option autoImplicit false

/-! ## `stashFieldList` -/

section Stash
variable {r : Rope} {tags : Bool} {base : ℕ} {f : Field} {post : Post} {overlay : Option Ptr} {offset : ℤ}
  {n : ℕ}

/-- There are `n` bytes at `overlay + offset`, in the block that `overlay` is in. -/
def Inside (r : Rope) (overlay : Option Ptr) (offset : ℤ) (n : ℕ) : Prop :=
  n = 0 ∨ ∃ p, overlay = some p ∧ 0 ≤ p.2 + offset ∧ p.2 + offset + n ≤ r.len p.1

/-- The text at `overlay + offset` is over within `n` bytes, by a zero byte or not, and up to there it is in the
block that `overlay` is in. -/
def TextIn (r : Rope) (overlay : Option Ptr) (offset : ℤ) (n : ℕ) : Prop :=
  Inside r overlay offset n ∨ ∃ p, overlay = some p ∧ 0 ≤ p.2 + offset ∧ ∃ k < n,
    (p.2 + offset).toNat + k < r.len p.1 ∧ r.mem p.1 ((p.2 + offset).toNat + k) = 0

/-- Where the field is read from is inside of the record's block, and a string of it is found and ends. -/
def FieldOk (r : Rope) (base : ℕ) (f : Field) : Prop :=
  match PacketFieldType.ofCode f.data.type with
  | none | some .list => True
  | some .bool => Inside r (pktFind r base) f.data.offset 1
  | some .int | some .unsignedInt => Inside r (pktFind r base) f.data.offset 4
  | some .long | some .unsignedLong => Inside r (pktFind r base) f.data.offset 8
  | some .string => ∃ offset, loadAt r (pktFind r base) f.data.offset 4 = some offset ∧ StringAt r (ofLe offset)
  | some .char => TextIn r (pktFind r base) f.data.offset (intSize f % 2 ^ 64).toNat

def FieldsOk (r : Rope) (base : ℕ) (fieldList : List Field) : Prop := ∀ f ∈ fieldList, FieldOk r base f

theorem loadAt_isSome : (loadAt r overlay offset n).isSome ↔ Inside r overlay offset n := by
  unfold loadAt Inside
  by_cases h0 : n = 0
  · simp [h0]
  · cases overlay with
    | none => simp [h0]
    | some p => simp [h0]

theorem loadAt_length {bs : List UInt8} (h : loadAt r overlay offset n = some bs) : bs.length = n := by
  unfold loadAt at h
  split at h
  · next h0 =>
    rw [h0, ← Option.some.inj h]
    rfl
  · obtain ⟨p, -, h⟩ := Option.bind_eq_some_iff.1 h
    obtain ⟨-, h⟩ := Option.ite_none_right_eq_some.1 h
    rw [← Option.some.inj h, Rope.load, Mem.load_length]

theorem loadAt_eq {p : Ptr} {off : ℕ} (hp : 0 < n → overlay = some p) (hoff : offset = off)
    (hin : 0 < n → p.2 + off + n ≤ r.len p.1) : loadAt r overlay offset n = some (r.load (p.1, p.2 + off) n) := by
  subst hoff
  unfold loadAt
  by_cases h0 : n = 0
  · subst h0
    rfl
  · have hpos := Nat.pos_of_ne_zero h0
    have hlen := hin hpos
    rw [if_neg h0, hp hpos, Option.bind_some, if_pos (by omega)]
    congr 3

theorem memchr_isSome : (memchr r overlay offset n).isSome ↔ TextIn r overlay offset n := by
  unfold memchr TextIn Inside
  by_cases h0 : n = 0
  · simp [h0]
  · cases overlay with
    | none => simp [h0]
    | some p =>
      by_cases hoff : 0 ≤ p.2 + offset
      · obtain ⟨str, hstr⟩ := Int.eq_ofNat_of_zero_le hoff
        simp only [h0, if_false, Option.bind_some, hstr, Int.toNat_natCast, Option.some.injEq, false_or,
          exists_eq_left', Int.natCast_nonneg, if_true, true_and]
        cases hfind : (List.range (min n (r.len p.1 - str))).find? fun k => r.mem p.1 (str + k) = 0 with
        | some null =>
          obtain ⟨hzero, hnull, -⟩ := List.find?_range_eq_some.1 hfind
          have hlt := List.mem_range.1 hnull
          simp only [Option.isSome_some, true_iff]
          exact .inr ⟨null, by omega, by omega, by simpa using hzero⟩
        | none =>
          have hnone := List.find?_range_eq_none.1 hfind
          by_cases hlen : str + n ≤ r.len p.1
          · simp only [if_pos hlen, Option.isSome_some, true_iff]
            exact .inl (by omega)
          · simp only [if_neg hlen, Option.isSome_none, Bool.false_eq_true, false_iff, not_or, not_exists]
            refine ⟨by omega, fun k ⟨hk, hlt, hzero⟩ => ?_⟩
            have hrange : k < min n (r.len p.1 - str) := by omega
            have hne := hnone k hrange
            simp [hzero] at hne
      · simp [h0, hoff]

theorem intOf_toNat_le (n : ℕ) : (intOf n).toNat ≤ n := by
  have hmod := Nat.mod_le n (2 ^ 32)
  unfold intOf
  rw [BitVec.toInt_eq_toNat_cond, BitVec.toNat_ofNat]
  split
  · exact hmod
  · omega

/-- What `memchr` went through is inside. -/
theorem loadAt_of_memchr {null : Option ℕ} (h : memchr r overlay offset (intSize f % 2 ^ 64).toNat = some null) :
    (loadAt r overlay offset ((null.map intOf).getD (intSize f)).toNat).isSome := by
  have hlow : -(2 ^ 31 : ℤ) ≤ intSize f := Int.le_bmod (by decide)
  have hhigh : intSize f < 2 ^ 31 := Int.bmod_lt (by decide)
  rw [loadAt_isSome]
  unfold memchr at h
  by_cases h0 : (intSize f % 2 ^ 64).toNat = 0
  · rw [if_pos h0, Option.some.injEq] at h
    subst h
    exact .inl (by simp only [Option.map_none, Option.getD_none]; omega)
  · rw [if_neg h0] at h
    obtain ⟨p, rfl, h⟩ := Option.bind_eq_some_iff.1 h
    obtain ⟨hoff, h⟩ := Option.ite_none_right_eq_some.1 h
    refine .inr ⟨p, rfl, hoff, ?_⟩
    split at h
    · next null' hfind =>
      cases h
      have hnull := List.mem_range.1 (List.find?_range_eq_some.1 hfind).2.1
      have hle := intOf_toNat_le null'
      simp only [Option.map_some, Option.getD_some]
      omega
    · obtain ⟨hlen, h⟩ := Option.ite_none_right_eq_some.1 h
      cases h
      simp only [Option.map_none, Option.getD_none]
      omega

theorem grows_stashString : Grows fun n => stashString r n tags base f post :=
  (Grows.const _).bind fun _ => (Grows.const _).bind fun str => (grows_strlen str).map _

theorem stashString_returns : Returns (fun n => stashString r n tags base f post) ↔
    ∃ offset, loadAt r (pktFind r base) f.data.offset 4 = some offset ∧ StringAt r (ofLe offset) := by
  unfold stashString
  rw [returns_bind (.const _) fun _ => (Grows.const _).bind fun str => (grows_strlen str).map _]
  refine exists_congr fun offset => and_congr yields_const ?_
  rw [returns_bind (.const _) fun str => (grows_strlen str).map _]
  simp only [yields_const, returns_map, strlen_returns, StringAt]

theorem stashValue_returns {width : ℕ} {show' : ℕ → List UInt8} :
    Returns (fun _ : ℕ => stashValue r width show' base f post) ↔
      Inside r (pktFind r base) f.data.offset width := by
  rw [returns_const, stashValue, Option.isSome_map, loadAt_isSome]

theorem stashChar_returns : Returns (fun _ : ℕ => stashChar r tags base f post) ↔
    TextIn r (pktFind r base) f.data.offset (intSize f % 2 ^ 64).toNat := by
  rw [returns_const, stashChar, ← memchr_isSome]
  cases hnull : memchr r (pktFind r base) f.data.offset (intSize f % 2 ^ 64).toNat with
  | none => rfl
  | some null =>
    rw [Option.bind_some, Option.isSome_map]
    exact iff_of_true (loadAt_of_memchr hnull) rfl

variable (r tags base) in
theorem grows_stashField (post : Post) (f : Field) : Grows fun n => stashField r n tags base post f := by
  unfold stashField
  split
  · split
    case h_6 => exact grows_stashString
    all_goals exact .const _
  · exact .const _

theorem stashField_returns (post : Post) (f : Field) :
    Returns (fun n => stashField r n tags base post f) ↔ (tags = f.data.tag → FieldOk r base f) := by
  unfold stashField FieldOk
  by_cases ht : tags = f.data.tag
  · simp only [ht, if_true, true_implies]
    cases PacketFieldType.ofCode f.data.type with
    | none => simp [returns_const]
    | some t =>
      cases t with
      | string => exact stashString_returns
      | list => simp [returns_const]
      | char => exact stashChar_returns
      | _ => exact stashValue_returns
  · simp [ht, returns_const]

variable (r tags base) in
theorem grows_stashFieldList (fieldList : List Field) (post : Post) :
    Grows fun n => stashFieldList r n tags base fieldList post :=
  Grows.foldlM (grows_stashField r tags base) fieldList post

theorem stashFieldList_returns (fieldList : List Field) (post : Post) :
    Returns (fun n => stashFieldList r n tags base fieldList post) ↔
      ∀ f ∈ fieldList, tags = f.data.tag → FieldOk r base f :=
  returns_foldlM (grows_stashField r tags base) stashField_returns fieldList post

/-- What comes behind a list of fields returns or not, whatever was written before. -/
theorem stashFieldList_then {β : Type} {g : ℕ → Post → Option β} {p : Prop} (fieldList : List Field)
    (post : Post) (hg : ∀ post, Grows fun n => g n post) (hp : ∀ post, Returns (fun n => g n post) ↔ p) :
    Returns (fun n => (stashFieldList r n tags base fieldList post).bind (g n)) ↔
      (∀ f ∈ fieldList, tags = f.data.tag → FieldOk r base f) ∧ p := by
  rw [returns_bind_iff (grows_stashFieldList r tags base fieldList post) hg hp,
    stashFieldList_returns]

/-- The fields that are tags and those that are none are all the fields. -/
theorem fieldsOk_iff (fieldList : List Field) : FieldsOk r base fieldList ↔
    (∀ f ∈ fieldList, true = f.data.tag → FieldOk r base f) ∧
      ∀ f ∈ fieldList, false = f.data.tag → FieldOk r base f := by
  constructor
  · exact fun h => ⟨fun f hf _ => h f hf, fun f hf _ => h f hf⟩
  · rintro ⟨htrue, hfalse⟩ f hf
    cases ht : f.data.tag with
    | true => exact htrue f hf ht.symm
    | false => exact hfalse f hf ht.symm

/-! ## `stashStruct` -/

variable {strct : Struct} {listOf : List Field} {itemOffset : ℕ}

theorem grows_stashItem (text : List UInt8) :
    Grows fun n => stashItem r n strct listOf itemOffset text :=
  (grows_stashFieldList _ _ _ _ _).bind fun _ => (grows_stashFieldList _ _ _ _ _).bind fun _ =>
    (grows_stashFieldList _ _ _ _ _).bind fun _ => (grows_stashFieldList _ _ _ _ _).map _

theorem stashItem_returns (text : List UInt8) :
    Returns (fun n => stashItem r n strct listOf itemOffset text) ↔
      FieldsOk r headSize strct.fieldList ∧ FieldsOk r itemOffset listOf := by
  have hgrows := fun tags base => grows_stashFieldList r tags base
  have hrest4 := fun post => (hgrows false itemOffset listOf post).map fun post => post.text ++ bytes "\n"
  have hrest3 := fun post : Post => (hgrows false headSize strct.fieldList { post with sep := 32 }).bind hrest4
  have hrest2 := fun post => (hgrows true itemOffset listOf post).bind hrest3
  unfold stashItem
  rw [stashFieldList_then _ _ hrest2 fun post => stashFieldList_then _ _ hrest3 fun post =>
    stashFieldList_then _ _ hrest4 fun post => returns_map.trans (stashFieldList_returns listOf post),
    fieldsOk_iff, fieldsOk_iff]
  tauto

/-- The next element after the one at `off`; 0 has none. -/
def nextItem (r : Rope) (off : ℕ) : Option ℕ :=
  if off = 0 then none else (loadAt r (pktFind r off) 0 4).map ofLe

/-- From `off` on the links come to no offset twice, and every element on the way is found with its link and
all that is written of it. -/
def ItemsOk (r : Rope) (strct : Struct) (listOf : List Field) (off : ℕ) : Prop :=
  NoRepeat (nextItem r) off ∧ ∀ k o, follow (nextItem r) k off = some o → o ≠ 0 →
    Inside r (pktFind r o) 0 4 ∧ FieldsOk r headSize strct.fieldList ∧ FieldsOk r o listOf

theorem nextItem_lt {a b : ℕ} (h : nextItem r a = some b) : b < 2 ^ 32 := by
  unfold nextItem at h
  split at h
  · cases h
  · obtain ⟨next, hnext, rfl⟩ := Option.map_eq_some_iff.1 h
    have hlt := ofLe_lt next
    rwa [loadAt_length hnext] at hlt

/-- Links are numbers below 2 ^ 32, so that they end if they come to none twice. -/
theorem nextItem_ends_iff (off : ℕ) : Ends (nextItem r) off ↔ NoRepeat (nextItem r) off := by
  apply ends_iff_noRepeat ((Set.finite_lt_nat (2 ^ 32)).insert off)
  intro n b h
  cases n with
  | zero => exact .inl (Option.some.inj h).symm
  | succ n =>
    obtain ⟨a, -, hab⟩ := Option.bind_eq_some_iff.1 h
    exact .inr (nextItem_lt hab)

theorem grows_stashItems (off : ℕ) (text : List UInt8) :
    Grows fun n => stashItems r strct listOf n off text := by
  intro n
  induction n generalizing off text with
  | zero =>
    intro x h
    cases h
  | succ n ih =>
    simp only [stashItems]
    split
    · exact .refl _
    · exact (grows_stashItem text n).bind fun text => (Below.refl _).bind fun next => ih _ text

theorem stashItems_turn {off : ℕ} (h0 : off ≠ 0) (text : List UInt8) :
    Returns (fun n => stashItems r strct listOf n off text) ↔
      ∃ text', Yields (fun n => stashItem r n strct listOf off text) text' ∧
        ∃ next, loadAt r (pktFind r off) 0 4 = some next ∧
          Returns (fun n => stashItems r strct listOf n (ofLe next) text') := by
  have hnext : ∀ text', Grows fun n => (loadAt r (pktFind r off) 0 4).bind fun next =>
      stashItems r strct listOf n (ofLe next) text' :=
    fun text' => (Grows.const _).bind fun next => grows_stashItems (ofLe next) text'
  have hturn : Returns (fun n => stashItems r strct listOf n off text) ↔
      Returns (fun n => stashItems r strct listOf (n + 1) off text) :=
    exists_congr fun x => yields_succ (grows_stashItems off text)
  rw [hturn]
  simp only [stashItems, if_neg h0]
  rw [returns_bind (grows_stashItem text) hnext]
  refine exists_congr fun text' => and_congr_right fun _ => ?_
  rw [returns_bind (.const _) fun next => grows_stashItems (ofLe next) text']
  simp only [yields_const]

theorem nextItem_of {off : ℕ} {next : List UInt8} (h0 : off ≠ 0)
    (hnext : loadAt r (pktFind r off) 0 4 = some next) : nextItem r off = some (ofLe next) := by
  unfold nextItem
  rw [if_neg h0, hnext, Option.map_some]

theorem itemsOk_step {off : ℕ} {next : List UInt8} (h0 : off ≠ 0)
    (hload : loadAt r (pktFind r off) 0 4 = some next) :
    ItemsOk r strct listOf off ↔ (FieldsOk r headSize strct.fieldList ∧
      FieldsOk r off listOf) ∧ ItemsOk r strct listOf (ofLe next) := by
  have hnext := nextItem_of h0 hload
  unfold ItemsOk
  rw [← nextItem_ends_iff, ← nextItem_ends_iff, ends_of_next hnext]
  constructor
  · rintro ⟨hends, hall⟩
    refine ⟨(hall 0 off rfl h0).2, hends, fun k o hk => hall (k + 1) o ?_⟩
    rw [follow_one_add, hnext, Option.bind_some, hk]
  · rintro ⟨hfields, hends, hall⟩
    refine ⟨hends, fun k o hk ho0 => ?_⟩
    cases k with
    | zero =>
      obtain rfl := Option.some.inj hk
      exact ⟨loadAt_isSome.1 (by rw [hload]; rfl), hfields⟩
    | succ k =>
      rw [follow_one_add, hnext, Option.bind_some] at hk
      exact hall k o hk ho0

theorem itemsOk_zero : ItemsOk r strct listOf 0 := by
  have hnext : nextItem r 0 = none := if_pos rfl
  refine ⟨(ends_of_none hnext).noRepeat, fun k o hk ho => ?_⟩
  cases k with
  | zero => exact absurd (Option.some.inj hk).symm ho
  | succ k =>
    rw [follow_one_add, hnext] at hk
    cases hk

theorem stashItems_returns (off : ℕ) (text : List UInt8) :
    Returns (fun n => stashItems r strct listOf n off text) ↔ ItemsOk r strct listOf off := by
  constructor
  · rintro ⟨x, n, h⟩
    induction n generalizing off text with
    | zero => cases h
    | succ n ih =>
      simp only [stashItems] at h
      split at h
      · next h0 =>
        rw [h0]
        exact itemsOk_zero
      · next h0 =>
        simp only [Option.bind_eq_some_iff] at h
        obtain ⟨text', htext, next, hnext, h⟩ := h
        exact (itemsOk_step h0 hnext).2 ⟨(stashItem_returns text).1 ⟨text', n, htext⟩, ih _ _ h⟩
  · intro h
    -- along the links, up to the one that is 0
    obtain ⟨n, hn⟩ := (nextItem_ends_iff off).2 h.1
    induction n generalizing off text with
    | zero => cases hn
    | succ n ih =>
      by_cases h0 : off = 0
      · exact ⟨text, 1, if_pos h0⟩
      · obtain ⟨next, hnext⟩ := Option.isSome_iff_exists.1 (loadAt_isSome.2 (h.2 0 off rfl h0).1)
        obtain ⟨hfields, hrest⟩ := (itemsOk_step h0 hnext).1 h
        obtain ⟨text', htext⟩ := (stashItem_returns text).2 hfields
        refine (stashItems_turn h0 text).2 ⟨text', htext, next, hnext, ih _ text' hrest ?_⟩
        rwa [follow_one_add, nextItem_of h0 hnext] at hn

/-- A packet that can be written after this description. -/
def Stashable (r : Rope) (strct : Struct) : Prop :=
  match strct.hasList with
  | some list => ∃ head, loadAt r (pktFind r headSize) list.data.offset 4 = some head ∧
      ItemsOk r strct list.listOf (ofLe head)
  | none => FieldsOk r headSize strct.fieldList

theorem grows_stashStruct (strct : Struct) (text : List UInt8) :
    Grows fun n => stashStruct r n strct text := by
  unfold stashStruct
  split
  · exact (Grows.const _).bind fun head => grows_stashItems _ text
  · exact (grows_stashFieldList _ _ _ _ _).bind fun post => (grows_stashFieldList _ _ _ _ _).map _

theorem stashStruct_returns (strct : Struct) (text : List UInt8) :
    Returns (fun n => stashStruct r n strct text) ↔ Stashable r strct := by
  unfold stashStruct Stashable
  cases strct.hasList with
  | some list =>
    refine (returns_bind (.const _) fun head => grows_stashItems _ text).trans ?_
    exact exists_congr fun head => and_congr yields_const (stashItems_returns _ text)
  | none =>
    refine (stashFieldList_then _ _ (fun post => (grows_stashFieldList _ _ _ _ _).map _) fun post =>
      returns_map.trans (stashFieldList_returns strct.fieldList _)).trans ?_
    exact (fieldsOk_iff strct.fieldList).symm

end Stash

/-! ## Runs -/

/-- The packet can be written after the description that its id has in the map, and be read if it is a
description itself, with its record in one block. -/
def Handled (env : Surroundings) (structMap : StructMap) (r : Rope) : Prop :=
  (∀ strct, structMap (intOf (r.u32 (0, 12))) = some strct → env.influxToken = true →
    Stashable r strct) ∧ (r.u32 (0, 12) = idPacketType →
      Inside r (pktFind r headSize) 0 (recordSize true packetType) ∧ Described r)

section Runs
variable (env : Surroundings) (structMap : StructMap)

theorem grows_post (r : Rope) (s : Option Struct) : Grows fun n => match s with
    | some strct => if env.influxToken then stashStruct r n strct [] else some []
    | none => some [] := by
  cases s with
  | none => exact .const _
  | some strct =>
    simp only
    split
    · exact grows_stashStruct strct []
    · exact .const _

theorem grows_received (r : Rope) (post : List UInt8) : Grows fun n => if r.u32 (0, 12) = idPacketType then
      (loadAt r (pktFind r headSize) 0 (recordSize true packetType)).bind fun _ =>
        (recvPacketType env.junkField r n (recordPacket env.junk r headSize packetType)).map fun s : Struct =>
          (Function.update structMap s.ID (some s), post)
    else some (structMap, post) := by
  split
  · exact (Grows.const _).bind fun _ => (grows_recvPacketType _ _).map _
  · exact .const _

theorem grows_dispatchPacket (r : Rope) : Grows fun n => dispatchPacket env n structMap r :=
  (grows_post env r _).bind (grows_received env structMap r)

theorem post_returns (r : Rope) (s : Option Struct) :
    Returns (fun n => match s with
      | some strct => if env.influxToken then stashStruct r n strct [] else some []
      | none => some []) ↔
      ∀ strct, s = some strct → env.influxToken = true → Stashable r strct := by
  cases s with
  | none => simp [returns_const]
  | some strct =>
    cases ht : env.influxToken with
    | false => simp [returns_const]
    | true => simpa using stashStruct_returns strct []

theorem dispatchPacket_returns (r : Rope) :
    Returns (fun n => dispatchPacket env n structMap r) ↔ Handled env structMap r := by
  unfold dispatchPacket Handled
  rw [← post_returns]
  refine returns_bind_iff (grows_post env r _) (grows_received env structMap r) fun post => ?_
  by_cases hid : r.u32 (0, 12) = idPacketType
  · simp only [hid, if_true, true_implies]
    rw [returns_bind_iff (.const _) (fun _ => (grows_recvPacketType _ _).map _) fun _ =>
      returns_map.trans (recvPacketType_returns _ _), returns_const, loadAt_isSome]
  · simp [hid, returns_const]

/-- Whatever packets arrive, the broker gets through them all, without a null pointer, exactly if it can
handle each after those before it. -/
theorem receiveAll_returns_iff (ropes : List Rope) :
    Returns (fun n => receiveAll env n structMap ropes) ↔
      ∀ pre r post structMap', ropes = pre ++ r :: post →
        Yields (fun n => receiveAll env n structMap pre) structMap' → Handled env structMap' r :=
  returns_foldlM_iff (fun structMap r => (grows_dispatchPacket env structMap r).map Prod.fst)
    (fun structMap r => returns_map.trans (dispatchPacket_returns env structMap r)) ropes structMap

end Runs

/-! ## A list that leads back to itself -/

/-- A rope that `parsePacket` dispatches. -/
def Dispatched (r : Rope) : Prop := ∃ results headBuf mem need inp recv rest,
  parsePacket results ⟨.wantHead, headBuf, ⟨[], mem⟩, 0, need⟩ inp = (.dispatch recv, rest) ∧ recv.buf = r

/-- The rope of these bytes, if they are a packet of one block. -/
def ropeOf (inp : List UInt8) : Rope :=
  match parsePacket [.data headSize, .data inp.length] ⟨.wantHead, fun _ _ => 0, ⟨[], fun _ _ => 0⟩, 0, 0⟩
      inp with
  | (.dispatch recv, _) => recv.buf
  | _ => ⟨[], fun _ _ => 0⟩

theorem dispatched_ropeOf {inp : List UInt8} (h : (ropeOf inp).blocks ≠ []) : Dispatched (ropeOf inp) := by
  unfold ropeOf at h ⊢
  split
  · next recv rest heq => exact ⟨_, _, _, _, _, recv, rest, heq, rfl⟩
  · next hno =>
    split at h
    · next recv rest heq => exact absurd heq (hno recv rest)
    · exact absurd rfl h

/-- A `PacketType` for the id 7, with one field: a list of a struct without fields. -/
def listType : List UInt8 :=
  le 4 0 ++ le 4 54 ++ le 4 54 ++ le 4 1 ++ (le 4 53 ++ le 4 7 ++ le 4 1 ++ le 4 32) ++
    (le 4 0 ++ le 4 53 ++ [0] ++ le 4 8 ++ le 4 0 ++ le 4 0) ++ [0]

/-- A packet with the id 7. Its list is at 16, and there the link is 16. -/
def listToItself : List UInt8 := le 4 0 ++ le 4 20 ++ le 4 20 ++ le 4 7 ++ le 4 16

/-- A broker with a database, in memory that is all zeros. -/
def zeroed : Surroundings := ⟨true, ⟨fun _ => 0, fun _ _ => 0⟩, ⟨fun _ => none, 0, 0⟩⟩

theorem listType_read : Yields (fun n => (dispatchPacket zeroed n (fun _ => none) (ropeOf listType)).map Prod.fst)
    (Function.update (fun _ => none) 7 (some ⟨[], 7, [.mk ⟨[], false, 8, 0, 0⟩ []]⟩)) := ⟨3, rfl⟩

theorem listToItself_cycle : follow (nextItem (ropeOf listToItself)) 1 16 = some 16 := rfl

theorem listToItself_not_stashable :
    ¬ Stashable (ropeOf listToItself) ⟨[], 7, [.mk ⟨[], false, 8, 0, 0⟩ []]⟩ := by
  rintro ⟨head, ho, hitems, -⟩
  have hfound : loadAt (ropeOf listToItself) (pktFind (ropeOf listToItself) headSize) 0 4 =
      some (le 4 16) := rfl
  obtain rfl := Option.some.inj (hfound.symm.trans ho)
  exact hitems 0 1 16 Nat.zero_lt_one rfl listToItself_cycle

theorem cyclic_list : ¬ ∀ (env : Surroundings) (ropes : List Rope), (∀ r ∈ ropes, Dispatched r) →
    Returns (fun n => receiveAll env n (fun _ => none) ropes) := by
  intro h
  have hstep := fun structMap r => (grows_dispatchPacket zeroed structMap r).map Prod.fst
  have hdispatched : ∀ r ∈ [ropeOf listType, ropeOf listToItself], Dispatched r := by
    intro r hr
    simp only [List.mem_cons, List.not_mem_nil, or_false] at hr
    rcases hr with rfl | rfl
    · exact dispatched_ropeOf (by decide)
    · exact dispatched_ropeOf (by decide)
  obtain ⟨structMap, hmap, hrest⟩ := (returns_foldlM_cons hstep _ _ _).1 (h zeroed _ hdispatched)
  obtain ⟨structMap', hmap', -⟩ := (returns_foldlM_cons hstep _ _ _).1 hrest
  -- the map has the description
  rw [(hstep _ _).unique hmap listType_read] at hmap'
  have hhandled := (dispatchPacket_returns zeroed _ _).1 (returns_map.1 ⟨structMap', hmap'⟩)
  exact listToItself_not_stashable (hhandled.1 _ rfl rfl)

end Netp.Broker.Influx
