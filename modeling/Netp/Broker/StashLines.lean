import Netp.Broker.Definition
import Netp.Broker.StashReturns
import Netp.Broker.StashText

/-! # What `stashStruct` writes of a packet

Of a record whose fields are where the description has them the line is put (`stashFieldList_yields`),
unless a string was never set: its offset is 0, and `pktFind` returns a null pointer for that. The lines of
a packet read back as what was packed if every string is set and has nothing in it that the format takes for
its own (`stash_reads_iff`).
-/

namespace Netp.Broker.Influx
open Netp.Lib Netp.Genf
set_option autoImplicit false

/-! ## One field -/

/-- What is in the slot of a field: the value that was set, or zeros. A string is in one block. -/
def SlotIs (r : Rope) (packet : Bool) (slot : Ptr) (ty : FieldType) : Option Value → Prop
  | some v => (∃ strs, SlotHolds r strs packet slot ty v) ∧ ∀ s, v = .string s → 0 ∉ s ∧ s.length < 2 ^ 31 ∧
      ∀ p, pktFind r (r.u32 slot) = some p → p.2 + (s.length + 1) ≤ r.len p.1
  | none => r.load slot (fieldWidth packet ty) = List.replicate (fieldWidth packet ty) 0

/-- The field `f` of a record at `overlay` is `h`. -/
structure FieldAt (r : Rope) (packet : Bool) (overlay : Ptr) (f : Field) (h : Held) : Prop where
  name : f.data.name = h.field.id.text
  tag : f.data.tag = h.field.tag
  type : f.data.type = fieldTypeCode h.field.type
  size : ∀ n, h.field.type = .char n → f.data.size = n ∧ n < 2 ^ 31
  slot : listStruct h.field.type = none →
    ∃ off : ℕ, f.data.offset = off ∧ SlotIs r packet (overlay.1, overlay.2 + off) h.field.type h.value ∧
      overlay.2 + off + fieldWidth packet h.field.type ≤ r.len overlay.1

section Field
variable {r : Rope} {packet tags : Bool} {overlay : Ptr} {base off : ℕ} {f : Field} {h : Held}
  {post post' : Post}

/-- What `stashChar` takes of `n` bytes: the text up to the first zero. -/
theorem memchr_load {found : Option Ptr} {offset : ℤ} {n : ℕ} (hfound : 0 < n → found = some overlay)
    (hoff : offset = off) (hin : overlay.2 + off + n ≤ r.len overlay.1) (hn : n < 2 ^ 31) :
    ((memchr r found offset n).bind fun null => loadAt r found offset ((null.map intOf).getD n).toNat) =
      some (cstr (r.load (overlay.1, overlay.2 + off) n)) := by
  have hload : ∀ m ≤ n, loadAt r found offset m = some (r.load (overlay.1, overlay.2 + off) m) :=
    fun m hm => loadAt_eq (fun hpos => hfound (hpos.trans_le hm)) hoff fun _ => by omega
  unfold memchr
  by_cases h0 : n = 0
  · subst h0
    rw [if_pos rfl, Option.bind_some, hload _ (by simp)]
    rfl
  · have hstart : (overlay.2 : ℤ) + offset = ((overlay.2 + off : ℕ) : ℤ) := by rw [hoff]; push_cast; rfl
    have hmin : min n (r.len overlay.1 - (overlay.2 + off)) = n := by omega
    rw [if_neg h0, hfound (Nat.pos_of_ne_zero h0), Option.bind_some, hstart, if_pos (Int.natCast_nonneg _)]
    rw [hfound (Nat.pos_of_ne_zero h0)] at hload
    simp only [Int.toNat_natCast, hmin]
    cases hfind : (List.range n).find? fun k => r.mem overlay.1 (overlay.2 + off + k) = 0 with
    | none =>
      have hnone := List.find?_range_eq_none.1 hfind
      simp only [if_pos hin, Option.bind_some, Option.map_none, Option.getD_none, Int.toNat_natCast,
        hload n le_rfl, Option.some.injEq]
      symm
      refine cstr_eq_self fun c hc => ?_
      obtain ⟨k, hk, rfl⟩ := List.mem_map.1 hc
      simpa using hnone k (List.mem_range.1 hk)
    | some m =>
      obtain ⟨hzero, hm, hbefore⟩ := List.find?_range_eq_some.1 hfind
      have hlt := List.mem_range.1 hm
      simp only [Option.bind_some, Option.map_some, Option.getD_some]
      rw [intOf_eq (by omega), Int.toNat_natCast, hload m hlt.le, Option.some.injEq]
      obtain ⟨d, rfl⟩ : ∃ d, n = m + 1 + d := ⟨n - (m + 1), by omega⟩
      have hsplit : r.load (overlay.1, overlay.2 + off) (m + 1 + d) =
          r.load (overlay.1, overlay.2 + off) m ++ 0 :: r.mem.load overlay.1 (overlay.2 + off + (m + 1)) d := by
        have hlast : r.mem.load overlay.1 (overlay.2 + off + m) 1 = [0] := by
          simp only [Mem.load, List.range_one, List.map_cons, List.map_nil, Nat.add_zero]
          rw [show r.mem overlay.1 (overlay.2 + off + m) = 0 by simpa using hzero]
        simp only [Rope.load]
        rw [Mem.load_add, Mem.load_add, hlast, List.append_assoc]
        rfl
      rw [hsplit, cstr_append_zero]
      intro c hc
      obtain ⟨k, hk, rfl⟩ := List.mem_map.1 hc
      simpa using hbefore k (List.mem_range.1 hk)

/-- What is put for the field. -/
def Post.take (post : Post) (tags : Bool) (h : Held) : Post :=
  if h.field.tag = tags ∧ listStruct h.field.type = none then post.put h.field.id.text (shown tags h.datum)
  else post

theorem stashValue_eq {width : ℕ} {show' : ℕ → List UInt8} (hbase : pktFind r base = some overlay)
    (hname : f.data.name = h.field.id.text) (hoff : f.data.offset = off)
    (hin : overlay.2 + off + width ≤ r.len overlay.1) :
    stashValue r width show' base f post = some (post.put h.field.id.text
      (show' (ofLe (r.load (overlay.1, overlay.2 + off) width)))) := by
  rw [stashValue, loadAt_eq (fun _ => hbase) hoff fun _ => hin, Option.map_some, hname]

section Slot
variable {slot : Ptr} {v : Option Value}

theorem slot_bool (hs : SlotIs r packet slot .bool v) : datumOf .bool (v.getD (zeroValue .bool)) =
    .bare (if ofLe (r.load slot 1) = 0 then bytes "f" else bytes "t") := by
  cases v with
  | none =>
    have hload : r.load slot 1 = [0] := hs
    rw [hload]
    rfl
  | some v =>
    obtain ⟨⟨strs, bs, hbs, hload⟩, -⟩ := hs
    cases v <;> cases hbs
    rename_i b
    have hbyte : r.load slot 1 = [if b then 1 else 0] := hload
    rw [hbyte]
    cases b <;> rfl

theorem slot_int (hs : SlotIs r packet slot .int v) : datumOf .int (v.getD (zeroValue .int)) =
    .bare (decimal (intOf (ofLe (r.load slot 4)))) := by
  cases v with
  | none =>
    have hload : r.load slot 4 = List.replicate 4 0 := hs
    rw [hload, ofLe_replicate_zero]
    rfl
  | some v =>
    obtain ⟨⟨strs, bs, hbs, hload⟩, -⟩ := hs
    cases v <;> cases hbs
    rename_i v
    have hword : r.load slot 4 = le 4 v.toNat := hload
    rw [hword, ofLe_le_of_lt v.isLt, intOf, BitVec.ofNat_toNat, BitVec.setWidth_eq]
    rfl

theorem slot_uint (hs : SlotIs r packet slot .uint v) : datumOf .uint (v.getD (zeroValue .uint)) =
    .bare (decimal (ofLe (r.load slot 4))) := by
  cases v with
  | none =>
    have hload : r.load slot 4 = List.replicate 4 0 := hs
    rw [hload, ofLe_replicate_zero]
    rfl
  | some v =>
    obtain ⟨⟨strs, bs, hbs, hload⟩, -⟩ := hs
    cases v <;> cases hbs
    rename_i v
    have hword : r.load slot 4 = le 4 v.toNat := hload
    rw [hword, ofLe_le_of_lt v.isLt]
    rfl

theorem slot_long (hs : SlotIs r packet slot .long v) : datumOf .long (v.getD (zeroValue .long)) =
    .bare (decimal (BitVec.ofNat 64 (ofLe (r.load slot 8))).toInt) := by
  cases v with
  | none =>
    have hload : r.load slot 8 = List.replicate 8 0 := hs
    rw [hload, ofLe_replicate_zero]
    rfl
  | some v =>
    obtain ⟨⟨strs, bs, hbs, hload⟩, -⟩ := hs
    cases v <;> cases hbs
    rename_i v
    have hword : r.load slot 8 = le 8 v.toNat := hload
    rw [hword, ofLe_le_of_lt v.isLt, BitVec.ofNat_toNat, BitVec.setWidth_eq]
    rfl

theorem slot_ulong (hs : SlotIs r packet slot .ulong v) : datumOf .ulong (v.getD (zeroValue .ulong)) =
    .bare (decimal (ofLe (r.load slot 8))) := by
  cases v with
  | none =>
    have hload : r.load slot 8 = List.replicate 8 0 := hs
    rw [hload, ofLe_replicate_zero]
    rfl
  | some v =>
    obtain ⟨⟨strs, bs, hbs, hload⟩, -⟩ := hs
    cases v <;> cases hbs
    rename_i v
    have hword : r.load slot 8 = le 8 v.toNat := hload
    rw [hword, ofLe_le_of_lt v.isLt]
    rfl

theorem slot_char {n : ℕ} (hs : SlotIs r packet slot (.char n) v) :
    datumOf (.char n) (v.getD (zeroValue (.char n))) = .string (cstr (r.load slot n)) := by
  cases v with
  | none =>
    have hload : r.load slot n = List.replicate n 0 := hs
    rw [hload]
    cases n <;> rfl
  | some v =>
    obtain ⟨⟨strs, bs, hbs, hload⟩, -⟩ := hs
    have hload : r.load slot n = bs := hload
    cases v with
    | char text =>
      rw [hload]
      simp only [inPlace, Option.getD_some, datumOf] at hbs ⊢
      split_ifs at hbs with hpacket hlen hzero
      · obtain rfl := Option.some.inj hbs
        rw [← hlen, List.take_length]
      · obtain rfl := Option.some.inj hbs
        -- an element's text is padded with zeros
        have hne : ∀ c ∈ text.take n, c ≠ 0 := fun c hc h0 => hzero (h0 ▸ List.mem_of_mem_take hc)
        rw [List.take_append, cstr_eq_self hne, List.take_replicate]
        cases hk : min (n - text.length) n with
        | zero => rw [List.replicate_zero, List.append_nil, cstr_eq_self hne]
        | succ k => rw [List.replicate_succ, cstr_append_zero hne]
    | _ => cases hbs

end Slot

/-- The code of the field tells how it is written. -/
def typeOf : FieldType → PacketFieldType
  | .bool => .bool
  | .int => .int
  | .uint => .unsignedInt
  | .long => .long
  | .ulong => .unsignedLong
  | .string => .string
  | .char _ => .char
  | .list _ => .list

theorem ofCode_typeOf (ty : FieldType) : PacketFieldType.ofCode (fieldTypeCode ty) = some (typeOf ty) := by
  cases ty <;> rfl

theorem stashString_yields (hbase : pktFind r base = some overlay) (hf : FieldAt r packet overlay f h)
    (hty : h.field.type = .string) :
    Yields (fun n => stashString r n tags base f post) post' ↔
      h.IsSet ∧ post' = post.put h.field.id.text (shown tags h.datum) := by
  obtain ⟨off, hoff, hslot, hin⟩ := hf.slot (by rw [hty]; rfl)
  rw [hty] at hslot hin
  unfold Held.IsSet Held.datum
  rw [hty]
  have hoffset : loadAt r (pktFind r base) f.data.offset 4 = some (r.load (overlay.1, overlay.2 + off) 4) :=
    loadAt_eq (fun _ => hbase) hoff fun _ => hin
  simp only [stashString, hoffset, Option.bind_some, hf.name, true_implies]
  cases hv : h.value with
  | none =>
    rw [hv] at hslot
    have hload : r.load (overlay.1, overlay.2 + off) 4 = List.replicate 4 0 := hslot
    rw [hload, ofLe_replicate_zero]
    simp [pktFind, Yields]
  | some v =>
    rw [hv] at hslot
    obtain ⟨⟨strs, hholds⟩, hstring⟩ := hslot
    cases v with
    | string s =>
      obtain ⟨p, hp, -, hbytes⟩ := hholds
      obtain ⟨hzero, hlen, hinside⟩ := hstring s rfl
      have hfind : pktFind r (ofLe (r.load (overlay.1, overlay.2 + off) 4)) = some p := hp
      have hlength : Yields (fun n => strlen r n p) s.length := ⟨_, strlen_of_load hzero hbytes (hinside p hp)⟩
      have htext : r.load p (intOf s.length).toNat = s := by
        have htake := Mem.load_take r.mem p.1 p.2 (Nat.le_succ s.length)
        have hload : r.mem.load p.1 p.2 (s.length + 1) = s ++ [0] := hbytes
        rw [Nat.succ_eq_add_one, hload, List.take_left' rfl] at htake
        rw [intOf_eq hlen]
        exact htake.symm
      simp only [hfind, Option.bind_some, yields_map]
      constructor
      · rintro ⟨len, hget, rfl⟩
        obtain rfl := (grows_strlen p).unique hget hlength
        rw [htext]
        exact ⟨Option.some_ne_none _, rfl⟩
      · rintro ⟨-, rfl⟩
        exact ⟨s.length, hlength, by rw [htext]; rfl⟩
    | _ =>
      obtain ⟨bs, hbs, -⟩ := hholds
      rw [inPlace_string] at hbs
      cases hbs

theorem stashField_yields (hbase : 0 < fieldWidth packet h.field.type → pktFind r base = some overlay)
    (hf : FieldAt r packet overlay f h) :
    Yields (fun n => stashField r n tags base post f) post' ↔
      (h.field.tag = tags → h.IsSet) ∧ post' = post.take tags h := by
  unfold stashField Post.take
  rw [hf.tag, hf.type, ofCode_typeOf]
  by_cases ht : h.field.tag = tags
  · have hslot := hf.slot
    have hsize := hf.size
    have hset : h.field.type ≠ .string → h.IsSet := fun hne hty => absurd hty hne
    simp only [ht, if_true, true_implies, true_and]
    unfold Held.datum at *
    cases hty : h.field.type with
    | list s =>
      have hlist : h.IsSet := hset (by rw [hty]; exact FieldType.noConfusion)
      simp [typeOf, listStruct, hlist, eq_comm]
    | string =>
      simp only [typeOf, listStruct, if_true]
      refine (stashString_yields (hbase (by rw [hty]; simp [fieldWidth])) hf hty).trans ?_
      rw [Held.datum, hty]
    | char n =>
      rw [hty] at hslot hbase
      obtain ⟨off, hoff, hslot, hin⟩ := hslot rfl
      obtain ⟨hn, hlt⟩ := hsize n hty
      have hint : intSize f = n := by
        rw [intSize, hn]
        exact Int.bmod_eq_of_le (by omega) (by omega)
      have hwidth : ((n : ℤ) % 2 ^ 64).toNat = n := by omega
      have hchar : h.IsSet := hset (by rw [hty]; exact FieldType.noConfusion)
      have htext := memchr_load (n := n) hbase hoff hin hlt
      simp only [typeOf, listStruct, if_true, stashChar, hint, hwidth, hf.name]
      have hput := congrArg (Option.map fun str => post.put h.field.id.text (quoted tags str)) htext
      rw [Option.map_bind] at hput
      simp only [Function.comp_def, Option.map_some] at hput
      simp only [hput, yields_const, slot_char hslot]
      simp [shown, hchar, eq_comm]
    | bool | int | uint | long | ulong =>
      rw [hty] at hslot hbase
      obtain ⟨off, hoff, hslot, hin⟩ := hslot rfl
      have hplain : h.IsSet := hset (by rw [hty]; exact FieldType.noConfusion)
      have hvalue := fun show' => (stashValue_eq (hbase (by simp [fieldWidth])) hf.name hoff hin :
        stashValue r _ show' base f post = _)
      simp only [fieldWidth] at hvalue
      simp only [typeOf, listStruct, if_true, stashBool, stashInt, stashUnsignedInt, stashLong,
        stashUnsignedLong, hvalue, yields_const, Option.some.injEq]
      first
        | rw [slot_bool hslot]
        | rw [slot_int hslot]
        | rw [slot_uint hslot]
        | rw [slot_long hslot]
        | rw [slot_ulong hslot]
      simp only [shown, hplain, true_and]
      exact eq_comm
  · simp [ht, Ne.symm ht, eq_comm]

end Field

/-! ## Records -/

/-- What is put for a record. -/
def Post.takeAll (post : Post) (tags : Bool) (record : List Held) : Post :=
  record.foldl (fun post h => post.take tags h) post

section Record
variable {r : Rope} {packet tags : Bool} {overlay : Ptr} {base : ℕ} {fs : List Field}
  {h : Held} {record header element : List Held} {post post' : Post}

theorem takeAll_append (post : Post) (tags : Bool) (x y : List Held) :
    post.takeAll tags (x ++ y) = (post.takeAll tags x).takeAll tags y := List.foldl_append

theorem takeAll_eq (tags : Bool) (record : List Held) : ∀ post : Post, post.takeAll tags record =
    ⟨post.text ++ entries post.sep ((written tags record).map fun h => (h.field.id.text, shown tags h.datum)),
      if written tags record = [] then post.sep else 44⟩ := by
  have hput : ∀ (post : Post) (h : Held) (x : List UInt8),
      (post.put h.field.id.text (shown tags h.datum)).text ++ x =
        post.text ++ (post.sep :: (h.field.id.text ++ 61 :: shown tags h.datum) ++ x) := by
    intro post h x
    have heq : bytes "=" = [61] := rfl
    simp [Post.put, heq]
  induction record with
  | nil =>
    intro post
    simp [Post.takeAll, written, entries]
  | cons h record ih =>
    intro post
    have hcons : post.takeAll tags (h :: record) = (post.take tags h).takeAll tags record := rfl
    rw [hcons, ih]
    by_cases hw : h.field.tag = tags ∧ listStruct h.field.type = none
    · have hwritten : written tags (h :: record) = h :: written tags record :=
        List.filter_cons_of_pos (by simpa using hw)
      rw [Post.take, if_pos hw, hwritten, List.map_cons, entries, hput, if_neg (List.cons_ne_nil _ _)]
      simp [Post.put]
    · have hwritten : written tags (h :: record) = written tags record :=
        List.filter_cons_of_neg (by simpa using hw)
      rw [Post.take, if_neg hw, hwritten]

theorem stashFieldList_yields (hall : List.Forall₂ (FieldAt r packet overlay) fs record)
    (hbase : (∃ h ∈ record, 0 < fieldWidth packet h.field.type) → pktFind r base = some overlay) :
    Yields (fun n => stashFieldList r n tags base fs post) post' ↔
      (∀ h ∈ record, h.field.tag = tags → h.IsSet) ∧ post' = post.takeAll tags record := by
  unfold stashFieldList
  induction hall generalizing post with
  | nil => simp [Post.takeAll, eq_comm]
  | @cons f h fs record hf hrest ih =>
    have hfound : 0 < fieldWidth packet h.field.type → pktFind r base = some overlay :=
      fun hpos => hbase ⟨h, List.mem_cons_self, hpos⟩
    have hrest' : (∃ h ∈ record, 0 < fieldWidth packet h.field.type) → pktFind r base = some overlay :=
      fun ⟨h, hh, hpos⟩ => hbase ⟨h, List.mem_cons_of_mem _ hh, hpos⟩
    simp only [List.foldlM_cons]
    refine (yields_bind (grows_stashField r tags base post f)
      fun post => Grows.foldlM (grows_stashField r tags base) fs post).trans ?_
    simp only [stashField_yields hfound hf, ih hrest', List.forall_mem_cons]
    constructor
    · rintro ⟨post₁, ⟨hset, rfl⟩, hsets, rfl⟩
      exact ⟨⟨hset, hsets⟩, rfl⟩
    · rintro ⟨⟨hset, hsets⟩, rfl⟩
      exact ⟨_, ⟨hset, rfl⟩, hsets, rfl⟩

/-- Every string is there. -/
def AllSet (record : List Held) : Prop := ∀ h ∈ record, h.IsSet

instance : DecidablePred AllSet := fun record => inferInstanceAs (Decidable (∀ h ∈ record, h.IsSet))

theorem allSet_iff : AllSet record ↔
    (∀ h ∈ record, h.field.tag = true → h.IsSet) ∧ ∀ h ∈ record, h.field.tag = false → h.IsSet := by
  constructor
  · exact fun hall => ⟨fun h hh _ => hall h hh, fun h hh _ => hall h hh⟩
  · rintro ⟨htags, hfields⟩ h hh
    cases ht : h.field.tag with
    | true => exact htags h hh ht
    | false => exact hfields h hh ht

theorem allSet_append : AllSet (header ++ element) ↔ AllSet header ∧ AllSet element := by
  simp only [AllSet, List.mem_append, or_imp, forall_and]

theorem takeAll_line (text name : List UInt8) (record : List Held) :
    Post.text ({ Post.takeAll ⟨text ++ name, 44⟩ true record with sep := 32 }.takeAll false record) =
      text ++ lineText name record := by
  rw [takeAll_eq, takeAll_eq]
  simp [lineText]

/-- The line of an element, with the fields of the packet in front. -/
theorem stashItem_yields {strct : Struct} {listOf : List Field} {itemOffset : ℕ} {head : Ptr}
    (text out : List UInt8) (hheader : List.Forall₂ (FieldAt r true head) strct.fieldList header)
    (hhead : pktFind r headSize = some head)
    (helement : List.Forall₂ (FieldAt r false overlay) listOf element)
    (hitem : pktFind r itemOffset = some overlay) :
    Yields (fun n => stashItem r n strct listOf itemOffset text) out ↔
      AllSet (header ++ element) ∧ out = text ++ (lineText strct.name (header ++ element) ++ [10]) := by
  have hgrows := grows_stashFieldList r
  unfold stashItem
  simp only [yields_bind (hgrows _ _ _ _) fun _ => (hgrows _ _ _ _).bind fun _ =>
      (hgrows _ _ _ _).bind fun _ => (hgrows _ _ _ _).map _,
    yields_bind (hgrows _ _ _ _) fun _ => (hgrows _ _ _ _).bind fun _ => (hgrows _ _ _ _).map _,
    yields_bind (hgrows _ _ _ _) fun _ => (hgrows _ _ _ _).map _, yields_map,
    stashFieldList_yields hheader fun _ => hhead, stashFieldList_yields helement fun _ => hitem]
  have hline := takeAll_line text strct.name (header ++ element)
  rw [takeAll_append, takeAll_append] at hline
  have hnewline : bytes "\n" = [10] := rfl
  rw [allSet_append, allSet_iff, allSet_iff, ← List.append_assoc, ← hline, hnewline]
  constructor
  · rintro ⟨_, ⟨htags, rfl⟩, _, ⟨htags', rfl⟩, _, ⟨hfields, rfl⟩, _, ⟨hfields', rfl⟩, rfl⟩
    exact ⟨⟨⟨htags, hfields⟩, htags', hfields'⟩, rfl⟩
  · rintro ⟨⟨⟨htags, hfields⟩, htags', hfields'⟩, rfl⟩
    exact ⟨_, ⟨htags, rfl⟩, _, ⟨htags', rfl⟩, _, ⟨hfields, rfl⟩, _, ⟨hfields', rfl⟩, rfl⟩

theorem stashItems_yields {strct : Struct} {listOf : List Field} {objs : List Obj} {ks : List ℕ} {off : ℕ}
    {head : Ptr} {held : ℕ → List Held} (text out : List UInt8)
    (hheader : List.Forall₂ (FieldAt r true head) strct.fieldList header)
    (hhead : pktFind r headSize = some head) (hleads : Leads r objs off ks)
    (helements : ∀ k ∈ ks, ∀ o, objs[k]? = some o → List.Forall₂ (FieldAt r false o.overlay) listOf (held k) ∧
      o.overlay.2 + 4 ≤ r.len o.overlay.1) :
    Yields (fun n => stashItems r strct listOf n off text) out ↔
      (∀ k ∈ ks, AllSet (header ++ held k)) ∧
        out = text ++ ks.flatMap fun k => lineText strct.name (header ++ held k) ++ [10] := by
  induction ks generalizing off text with
  | nil =>
    obtain rfl : off = 0 := hleads
    rw [yields_succ (grows_stashItems 0 text)]
    simp [stashItems, eq_comm]
  | cons k ks ih =>
    obtain ⟨hne, o, ho, hfound, hrest⟩ := hleads
    obtain ⟨helement, hlink⟩ := helements k List.mem_cons_self o ho
    have hitem := fun text' => stashItem_yields text text' hheader hhead helement hfound
    have hload : loadAt r (pktFind r off) 0 4 = some (r.load o.overlay 4) :=
      loadAt_eq (fun _ => hfound) Nat.cast_zero.symm fun _ => hlink
    have hnext := fun text' => (ih text' hrest fun k hk => helements k (List.mem_cons_of_mem _ hk) :
      Yields (fun n => stashItems r strct listOf n (ofLe (r.load o.overlay 4)) text') out ↔ _)
    rw [yields_succ (grows_stashItems off text)]
    simp only [stashItems, if_neg hne, hload, Option.bind_some]
    refine (yields_bind (grows_stashItem text) fun text => grows_stashItems _ text).trans ?_
    simp only [hitem, hnext, List.forall_mem_cons, List.flatMap_cons]
    constructor
    · rintro ⟨_, ⟨hset, rfl⟩, hsets, rfl⟩
      exact ⟨⟨hset, hsets⟩, List.append_assoc _ _ _⟩
    · rintro ⟨⟨hset, hsets⟩, rfl⟩
      exact ⟨_, ⟨hset, rfl⟩, hsets, (List.append_assoc _ _ _).symm⟩

end Record

end Netp.Broker.Influx
