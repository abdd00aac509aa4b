import Netp.Genf.PacketSend

/-! # What the setters leave in the rope

`Rep` relates a packer to the setters run so far. The record, the elements and the strings lie apart
from each other and from the headers, so a setter changes nothing but its own field: every field
keeps the value last set (`SlotHolds`), and every list field leads to its first element
(`HeadHolds`). It holds of a packet opened with its record in the first block and is kept by every
setter (`rep_run`).
-/

namespace Netp.Genf
open Netp.Lib
set_option autoImplicit false

/-! ## Layout -/

theorem fieldOffset_succ (packet : Bool) {fields : List FieldType} {j : ℕ} {ty : FieldType}
    (h : fields[j]? = some ty) :
    fieldOffset packet fields (j + 1) = fieldOffset packet fields j + fieldWidth packet ty := by
  unfold fieldOffset
  rw [List.take_add_one, h]
  simp [Nat.add_assoc]

theorem fieldOffset_mono (packet : Bool) (fields : List FieldType) {i j : ℕ} (h : i ≤ j) :
    fieldOffset packet fields i ≤ fieldOffset packet fields j := by
  induction j, h using Nat.le_induction with
  | base => exact le_refl _
  | succ j _ ih =>
    refine ih.trans ?_
    cases hj : fields[j]? with
    | some ty =>
      rw [fieldOffset_succ packet hj]
      exact Nat.le_add_right _ _
    | none =>
      have hle := List.getElem?_eq_none_iff.1 hj
      unfold fieldOffset
      rw [List.take_of_length_le hle, List.take_of_length_le (by omega)]

namespace Obj

/-- The bytes of the whole record. -/
def region (o : Obj) : Region ℕ := ⟨o.overlay.1, o.overlay.2, recordSize o.packet o.fields⟩

/-- The bytes of field `j`. -/
def slotRegion (o : Obj) (j : ℕ) (ty : FieldType) : Region ℕ :=
  ⟨(o.slot j).1, (o.slot j).2, fieldWidth o.packet ty⟩

variable {o : Obj} {i j : ℕ} {ty ty' : FieldType}

theorem slot_within (h : o.fields[j]? = some ty) : (o.slotRegion j ty).Within o.region := by
  have hlt : j < o.fields.length := (List.getElem?_eq_some_iff.1 h).1
  have hend := fieldOffset_succ o.packet h
  have hmono := fieldOffset_mono o.packet o.fields (show j + 1 ≤ o.fields.length from hlt)
  refine ⟨rfl, Nat.le_add_right _ _, ?_⟩
  simp only [slotRegion, slot, region, recordSize]
  omega

theorem slots_lt (hi : o.fields[i]? = some ty) (h : i < j) :
    (o.slot i).2 + fieldWidth o.packet ty ≤ (o.slot j).2 := by
  have hend := fieldOffset_succ o.packet hi
  have hmono := fieldOffset_mono o.packet o.fields (show i + 1 ≤ j from h)
  simp only [slot]
  omega

theorem slots_disjoint (hi : o.fields[i]? = some ty) (hj : o.fields[j]? = some ty') (h : i ≠ j) :
    (o.slotRegion i ty).Disjoint (o.slotRegion j ty') := by
  rcases Nat.lt_or_gt_of_ne h with h | h
  · exact .inr (.inl (slots_lt hi h))
  · exact .inr (.inr (slots_lt hj h))

theorem next_disjoint (hp : o.packet = false) :
    (o.slotRegion j ty).Disjoint ⟨o.overlay.1, o.overlay.2, 4⟩ := by
  refine .inr (.inr ?_)
  simp only [slotRegion, slot, fieldOffset, hp]
  have : (if false = true then 0 else 4) = 4 := rfl
  omega

theorem next_within (hp : o.packet = false) :
    Region.Within ⟨o.overlay.1, o.overlay.2, 4⟩ o.region := by
  refine ⟨rfl, le_refl _, ?_⟩
  simp only [region, recordSize, fieldOffset, hp]
  have : (if false = true then 0 else 4) = 4 := rfl
  omega

end Obj

/-! ## Values in place -/

theorem inPlace_length {packet : Bool} {ty : FieldType} {v : Value} {bs : List UInt8}
    (h : inPlace packet ty v = some bs) : bs.length = fieldWidth packet ty := by
  unfold inPlace at h
  split at h
  all_goals try split at h
  all_goals try split at h
  all_goals cases h
  all_goals simp_all [fieldWidth]

theorem inPlace_string {packet : Bool} {v : Value} : inPlace packet .string v = none := by
  unfold inPlace
  split <;> simp_all

theorem inPlace_list {packet : Bool} {s : ℕ} {v : Value} : inPlace packet (.list s) v = none := by
  unfold inPlace
  split <;> simp_all

/-- Field `slot` of type `ty` holds `v`; the strings lie in the regions `strs`. -/
def SlotHolds (r : Rope) (strs : List (Region ℕ)) (packet : Bool) (slot : Ptr) :
    FieldType → Value → Prop
  | .string, .string s =>
      ∃ p, pktFind r (r.u32 slot) = some p ∧ ⟨p.1, p.2, s.length + 1⟩ ∈ strs ∧
        r.load p (s.length + 1) = s ++ [0]
  | ty, v => ∃ bs, inPlace packet ty v = some bs ∧ r.load slot (fieldWidth packet ty) = bs

/-- The last value set in field `j` of object `k`. -/
def lastSet (ops : List Op) (k j : ℕ) : Option Value :=
  ops.reverse.findSome? fun
    | .set k' j' v => if k' = k ∧ j' = j then some v else none
    | .alloc _ => none

theorem lastSet_set (ops : List Op) (k j k' j' : ℕ) (v : Value) :
    lastSet (ops ++ [.set k' j' v]) k j = if k' = k ∧ j' = j then some v else lastSet ops k j := by
  unfold lastSet
  rw [List.reverse_append, List.reverse_singleton, List.singleton_append, List.findSome?_cons]
  by_cases hk : k' = k ∧ j' = j
  · simp [hk]
  · simp [hk]

theorem lastSet_alloc (ops : List Op) (k j i : ℕ) :
    lastSet (ops ++ [.alloc i]) k j = lastSet ops k j := by
  unfold lastSet
  rw [List.reverse_append, List.reverse_singleton, List.singleton_append, List.findSome?_cons]

theorem lastSet_mem {ops : List Op} {k j : ℕ} {v : Value} (h : lastSet ops k j = some v) :
    .set k j v ∈ ops := by
  obtain ⟨op, hop, hv⟩ := List.exists_of_findSome?_eq_some h
  rw [List.mem_reverse] at hop
  cases op with
  | alloc i => cases hv
  | set k' j' v' =>
    simp only [Option.ite_none_right_eq_some, Option.some.injEq] at hv
    obtain ⟨⟨rfl, rfl⟩, rfl⟩ := hv
    exact hop

/-- The first element of list field `j`. -/
def firstElement (objs : List Obj) (j : ℕ) : Option Obj := objs.tail.find? fun o => o.field == j

/-- A list field holds the offset of its first element, or 0. -/
def HeadHolds (r : Rope) (objs : List Obj) (slot : Ptr) (j : ℕ) : Prop :=
  match firstElement objs j with
  | none => r.u32 slot = 0
  | some o => r.u32 slot ≠ 0 ∧ pktFind r (r.u32 slot) = some o.overlay

structure Rep (id : ℕ) (P : List FieldType) (ops : List Op) (strs : List (Region ℕ))
    (pk : Packer) : Prop where
  headed : Headed pk.rope
  first : 16 + recordSize true P ≤ pk.rope.len 0
  msgId : pk.rope.load (0, 12) 4 = le 4 id
  record : pk.objs[0]? = some ⟨true, 0, (0, 16), P⟩
  elements : ∀ (k : ℕ) (o : Obj), 0 < k → pk.objs[k]? = some o → o.packet = false
  tails : ∀ j o, firstElement pk.objs j = some o →
    ∃ (k : ℕ) (o' : Obj), 0 < k ∧ pk.objs[k]? = some o' ∧ pk.tail j = o'.overlay
  objs_in : ∀ (k : ℕ) (o : Obj), pk.objs[k]? = some o → InRope pk.rope o.region
  objs_apart : ∀ (k k' : ℕ) (o o' : Obj), k ≠ k' → pk.objs[k]? = some o → pk.objs[k']? = some o' →
    o.region.Disjoint o'.region
  strs_in : ∀ g ∈ strs, InRope pk.rope g
  strs_apart : ∀ (k : ℕ) (o : Obj), pk.objs[k]? = some o → ∀ g ∈ strs, g.Disjoint o.region
  known : ∀ k j v, lastSet ops k j = some v → k < pk.objs.length
  vals : ∀ (k j : ℕ) (o : Obj) (ty : FieldType) (v : Value), pk.objs[k]? = some o → o.fields[j]? = some ty →
    lastSet ops k j = some v → SlotHolds pk.rope strs o.packet (o.slot j) ty v
  heads : ∀ j s, P[j]? = some (.list s) →
    HeadHolds pk.rope pk.objs (0, 16 + fieldOffset true P j) j

/-! ## What the calls do -/

section Calls
variable {C : ℕ} {structs : ℕ → List FieldType} {pk pk' : Packer} {j k : ℕ}

/-- A string is put behind what there is, any other value is stored in its field. -/
theorem exec_set_cases {v : Value} (h : exec C structs pk (.set k j v) = some pk') :
    ∃ o ty, pk.objs[k]? = some o ∧ o.fields[j]? = some ty ∧
      ((∃ src r dest offset, ty = .string ∧ v = .string src ∧ 0 ∉ src ∧
          allocBytes C pk.rope (src.length + 1) = some (r, dest, offset) ∧
          pk' = { pk with rope := (r.store (o.slot j) (le 4 offset)).store dest (src ++ [0]) }) ∨
        ∃ bs, inPlace o.packet ty v = some bs ∧ pk' = { pk with rope := pk.rope.store (o.slot j) bs }) := by
  simp only [exec, Option.bind_eq_bind, Option.bind_eq_some_iff, Option.some.injEq] at h
  obtain ⟨o, ho, ty, hty, r, hr, rfl⟩ := h
  refine ⟨o, ty, ho, hty, ?_⟩
  unfold setField at hr
  split at hr
  · next src =>
    obtain ⟨hzero, hr⟩ := Option.ite_none_left_eq_some.1 hr
    simp only [Option.bind_eq_bind, Option.bind_eq_some_iff, Option.some.injEq] at hr
    obtain ⟨⟨r1, dest, offset⟩, ha, rfl⟩ := hr
    exact .inl ⟨src, r1, dest, offset, rfl, rfl, hzero, ha, rfl⟩
  · obtain ⟨bs, hbs, rfl⟩ := Option.map_eq_some_iff.1 hr
    exact .inr ⟨bs, hbs, rfl⟩

theorem exec_alloc_cases (h : exec C structs pk (.alloc j) = some pk') :
    ∃ o s, pk.objs[0]? = some o ∧ o.fields[j]? = some (.list s) ∧
      allocElement C pk o j (structs s) = some pk' := by
  simp only [exec, Option.bind_eq_some_iff] at h
  obtain ⟨o, ho, ty, hty, h⟩ := h
  cases ty with
  | list s => exact ⟨o, s, ho, hty, h⟩
  | _ => cases h

/-- What the calls keep, a run of them keeps. -/
theorem execAll_invariant {I : List Op → Packer → Prop} (ops : List Op)
    (hstep : ∀ ops pk op pk', I ops pk → exec C structs pk op = some pk' → I (ops ++ [op]) pk')
    {ops' : List Op} (h : I ops pk) (hrun : execAll C structs pk ops' = some pk') :
    I (ops ++ ops') pk' := by
  induction ops' generalizing ops pk with
  | nil =>
    simp only [execAll, Option.some.injEq] at hrun
    rwa [List.append_nil, ← hrun]
  | cons op ops' ih =>
    simp only [execAll, Option.bind_eq_some_iff] at hrun
    obtain ⟨pk1, h1, h2⟩ := hrun
    have hall := ih (ops ++ [op]) (hstep ops pk op pk1 h h1) h2
    rwa [List.append_assoc, List.singleton_append] at hall

end Calls

/-! ## What a step leaves alone -/

/-- Both ropes have the same bytes there. -/
def SameAt (r r' : Rope) (g : Region ℕ) : Prop :=
  r'.mem.load g.blk g.start g.size = r.mem.load g.blk g.start g.size

/-- Only the regions `ws` may have changed. -/
def Unchanged (r r' : Rope) (ws : List (Region ℕ)) : Prop :=
  ∀ g : Region ℕ, (∀ w ∈ ws, g.Disjoint w) → SameAt r r' g

theorem unchanged_store (r : Rope) (p : Ptr) (bs : List UInt8) :
    Unchanged r (r.store p bs) [⟨p.1, p.2, bs.length⟩] := by
  intro g hg
  exact Mem.load_store_of_disjoint r.mem (hg _ (by simp))

theorem Unchanged.trans {r r' r'' : Rope} {ws us : List (Region ℕ)} (h : Unchanged r r' ws)
    (h' : Unchanged r' r'' us) : Unchanged r r'' (ws ++ us) := by
  intro g hg
  exact (h' g fun w hw => hg w (List.mem_append_right _ hw)).trans
    (h g fun w hw => hg w (List.mem_append_left _ hw))

theorem unchanged_of_mem {r r' : Rope} (h : r'.mem = r.mem) : Unchanged r r' [] := by
  intro g _
  unfold SameAt
  rw [h]

theorem extends_store {r r' : Rope} (h : Extends r r') (p : Ptr) (bs : List UInt8) :
    Extends r (r'.store p bs) := by
  cases h with
  | same h => exact .same h
  | longer as t t' h h' hl => exact .longer as t t' h h' hl
  | more t h' => exact .more t h'

theorem load_zeros (m : Mem ℕ) {b i n d : ℕ} (h : d + 4 ≤ n) :
    ofLe ((m.store b i (List.replicate n 0)).load b (i + d) 4) = 0 := by
  rw [Mem.load_store_part _ _ _ (by simpa using h), List.drop_replicate, List.take_replicate]
  exact ofLe_replicate_zero _

theorem SlotHolds.frame {r r' : Rope} {strs strs' : List (Region ℕ)} {packet : Bool}
    {slot : Ptr} {ty : FieldType} {v : Value} (h : SlotHolds r strs packet slot ty v)
    (hfind : Finds r r') (hslot : SameAt r r' ⟨slot.1, slot.2, fieldWidth packet ty⟩)
    (hstrs : ∀ g ∈ strs, SameAt r r' g) (hsub : strs ⊆ strs') :
    SlotHolds r' strs' packet slot ty v := by
  have hload : r'.load slot (fieldWidth packet ty) = r.load slot (fieldWidth packet ty) := hslot
  unfold SlotHolds at h ⊢
  split at h
  · next s =>
    obtain ⟨p, hp, hmem, hbytes⟩ := h
    have hu : r'.u32 slot = r.u32 slot := congrArg ofLe hload
    refine ⟨p, ?_, hsub hmem, ?_⟩
    · rw [hu]
      exact hfind hp
    · exact (hstrs _ hmem).trans hbytes
  · obtain ⟨bs, hbs, hl⟩ := h
    exact ⟨bs, hbs, hload.trans hl⟩

theorem HeadHolds.frame {r r' : Rope} {objs objs' : List Obj} {slot : Ptr} {j : ℕ}
    (h : HeadHolds r objs slot j) (hfind : Finds r r')
    (hslot : SameAt r r' ⟨slot.1, slot.2, 4⟩)
    (hobjs : firstElement objs' j = firstElement objs j) : HeadHolds r' objs' slot j := by
  have hu : r'.u32 slot = r.u32 slot := congrArg ofLe hslot
  unfold HeadHolds at h ⊢
  rw [hobjs, hu]
  split at h
  · exact h
  · exact ⟨h.1, hfind h.2⟩

section Steps
variable {id : ℕ} {P : List FieldType} {ops : List Op} {strs : List (Region ℕ)} {pk : Packer}

/-- A step wrote the bytes `w` of object `k`, the fresh bytes `g`, and nothing else. -/
structure Writes (pk : Packer) (r' : Rope) (k : ℕ) (o : Obj) (w g : Region ℕ) : Prop where
  obj : pk.objs[k]? = some o
  within : w.Within o.region
  headed : Headed r'
  ext : Extends pk.rope r'
  un : Unchanged pk.rope r' [w, g]
  fresh : ∀ a, InRope pk.rope a → a.Disjoint g
  off : Region.Disjoint ⟨0, 12, 4⟩ g

section Writes
variable {r' : Rope} {k : ℕ} {o : Obj} {w g : Region ℕ}

theorem Writes.disjoint (hw : Writes pk r' k o w g) {a : Region ℕ} (ha : InRope pk.rope a)
    (h : a.Disjoint w) : ∀ b ∈ [w, g], a.Disjoint b := by
  intro b hb
  rcases List.mem_cons.1 hb with rfl | hb
  · exact h
  · rw [List.mem_singleton.1 hb]
    exact hw.fresh a ha

theorem Writes.msgId (hw : Writes pk r' k o w g) (h : Rep id P ops strs pk) :
    r'.load (0, 12) 4 = le 4 id := by
  refine (hw.un ⟨0, 12, 4⟩ fun b hb => ?_).trans h.msgId
  rcases List.mem_cons.1 hb with rfl | hb
  · exact (h.objs_in k o hw.obj).msgId.within_right hw.within
  · rw [List.mem_singleton.1 hb]
    exact hw.off

theorem Writes.strings (hw : Writes pk r' k o w g) (h : Rep id P ops strs pk) :
    ∀ a ∈ strs, SameAt pk.rope r' a := by
  intro a ha
  apply hw.un a
  exact hw.disjoint (h.strs_in a ha) ((h.strs_apart k o hw.obj a ha).within_right hw.within)

theorem InRope.within {r : Rope} {a b : Region ℕ} (hb : InRope r b) (hw : a.Within b) :
    InRope r a := by
  obtain ⟨h1, h2, h3⟩ := hb
  obtain ⟨e, h4, h5⟩ := hw
  refine ⟨by rw [e]; omega, by omega, fun h0 => ?_⟩
  have := h3 (e ▸ h0)
  omega

/-- The bytes of other objects are kept, and so are those of object `k` that are apart from what was
written there. -/
theorem Writes.part (hw : Writes pk r' k o w g) (h : Rep id P ops strs pk) {k' : ℕ} {o' : Obj}
    {a : Region ℕ} (ho' : pk.objs[k']? = some o') (ha : a.Within o'.region)
    (hne : k' = k → a.Disjoint w) : SameAt pk.rope r' a := by
  have hin := (h.objs_in k' o' ho').within ha
  apply hw.un
  apply hw.disjoint hin
  by_cases hk : k' = k
  · exact hne hk
  · exact ((h.objs_apart k' k o' o hk ho' hw.obj).within_left ha).within_right hw.within

theorem Writes.slot (hw : Writes pk r' k o w g) (h : Rep id P ops strs pk) {k' j' : ℕ} {o' : Obj}
    {ty' : FieldType} (ho' : pk.objs[k']? = some o') (hty' : o'.fields[j']? = some ty')
    (hne : k' = k → (o'.slotRegion j' ty').Disjoint w) :
    SameAt pk.rope r' (o'.slotRegion j' ty') :=
  hw.part h ho' (Obj.slot_within hty') hne

theorem Rep.set (h : Rep id P ops strs pk) {j : ℕ} {ty : FieldType} {v : Value}
    {strs' : List (Region ℕ)} (hty : o.fields[j]? = some ty) (hlist : ∀ s, ty ≠ .list s)
    (hw : Writes pk r' k o (o.slotRegion j ty) g) (hsub : strs ⊆ strs')
    (hstrs : ∀ a ∈ strs', a ∈ strs ∨ a = g ∧ InRope r' g)
    (hv : SlotHolds r' strs' o.packet (o.slot j) ty v) :
    Rep id P (ops ++ [.set k j v]) strs' { pk with rope := r' } := by
  have hslot : ∀ {k' j' : ℕ} {o' : Obj} {ty' : FieldType}, pk.objs[k']? = some o' →
      o'.fields[j']? = some ty' → ¬ (k = k' ∧ j = j') →
      SameAt pk.rope r' (o'.slotRegion j' ty') := by
    intro k' j' o' ty' ho' hty' hne
    apply hw.slot h ho' hty'
    intro hk
    subst hk
    have he : o' = o := Option.some.inj (ho'.symm.trans hw.obj)
    subst he
    exact Obj.slots_disjoint hty' hty fun he => hne ⟨rfl, he.symm⟩
  refine
    { headed := hw.headed, first := h.first.trans (hw.ext.len_le 0), msgId := hw.msgId h,
      record := h.record, elements := h.elements, tails := h.tails,
      objs_in := fun k' o' ho' => hw.ext.inRope (h.objs_in k' o' ho'),
      objs_apart := h.objs_apart, strs_in := ?_, strs_apart := ?_, known := ?_, vals := ?_,
      heads := ?_ }
  · intro a ha
    rcases hstrs a ha with ha | ⟨rfl, ha⟩
    · exact hw.ext.inRope (h.strs_in a ha)
    · exact ha
  · intro k' o' ho' a ha
    rcases hstrs a ha with ha | ⟨rfl, -⟩
    · exact h.strs_apart k' o' ho' a ha
    · exact (hw.fresh _ (h.objs_in k' o' ho')).symm
  · intro k' j' v' hv'
    rw [lastSet_set] at hv'
    split at hv'
    · next he =>
      rw [← he.1]
      exact (List.getElem?_eq_some_iff.1 hw.obj).1
    · exact h.known k' j' v' hv'
  · intro k' j' o' ty' v' ho' hty' hv'
    rw [lastSet_set] at hv'
    split at hv'
    · next he =>
      obtain ⟨rfl, rfl⟩ := he
      have he : o' = o := Option.some.inj (ho'.symm.trans hw.obj)
      subst he
      have he : ty' = ty := Option.some.inj (hty'.symm.trans hty)
      subst he
      have he : v = v' := Option.some.inj hv'
      subst he
      exact hv
    · next he =>
      exact (h.vals k' j' o' ty' v' ho' hty' hv').frame hw.ext.finds (hslot ho' hty' he)
        (hw.strings h) hsub
  · intro j' s hj'
    refine (h.heads j' s hj').frame hw.ext.finds (hslot h.record hj' ?_) rfl
    rintro ⟨rfl, rfl⟩
    have he : o = ⟨true, 0, (0, 16), P⟩ := Option.some.inj (hw.obj.symm.trans h.record)
    subst he
    exact hlist s (Option.some.inj (hty.symm.trans hj'))

end Writes

theorem writes_inPlace (h : Rep id P ops strs pk) {k j : ℕ} {o : Obj} {ty : FieldType} {v : Value}
    {bs : List UInt8} (ho : pk.objs[k]? = some o) (hty : o.fields[j]? = some ty)
    (hbs : inPlace o.packet ty v = some bs) :
    Writes pk (pk.rope.store (o.slot j) bs) k o (o.slotRegion j ty) ⟨0, 0, 0⟩ := by
  refine ⟨ho, Obj.slot_within hty, h.headed, .same rfl, ?_, ?_, ?_⟩
  · intro g hg
    have := unchanged_store pk.rope (o.slot j) bs
    rw [inPlace_length hbs] at this
    apply this
    intro b hb
    rw [List.mem_singleton.1 hb]
    exact hg (o.slotRegion j ty) (by simp)
  · intro a _
    exact .inr (.inr (Nat.zero_le _))
  · exact .inr (.inr (Nat.zero_le _))

theorem rep_inPlace (h : Rep id P ops strs pk) {k j : ℕ} {o : Obj} {ty : FieldType} {v : Value}
    {bs : List UInt8} (ho : pk.objs[k]? = some o) (hty : o.fields[j]? = some ty)
    (hbs : inPlace o.packet ty v = some bs) :
    Rep id P (ops ++ [.set k j v]) strs { pk with rope := pk.rope.store (o.slot j) bs } := by
  refine h.set hty ?_ (writes_inPlace h ho hty hbs) (List.Subset.refl _) (fun a ha => .inl ha) ?_
  · rintro s rfl
    rw [inPlace_list] at hbs
    cases hbs
  · have hself : (pk.rope.store (o.slot j) bs).load (o.slot j) (fieldWidth o.packet ty) = bs := by
      rw [← inPlace_length hbs]
      exact Mem.load_store_self _ _ _ _
    unfold SlotHolds
    split
    · rw [inPlace_string] at hbs
      cases hbs
    · exact ⟨bs, hbs, hself⟩

theorem le_four_lt {n : ℕ} (h : n < 2 ^ 31) : ofLe (le 4 n) = n := by
  apply ofLe_le_of_lt
  omega

section Strings
variable {C k j : ℕ} {o : Obj} {src : List UInt8} {r : Rope} {dest : Ptr} {offset : ℕ}

theorem Rep.string_in (h : Rep id P ops strs pk)
    (hs : AllocSpec pk.rope (src.length + 1) r dest offset) :
    InRope r ⟨dest.1, dest.2, src.length + 1⟩ := hs.inRope (by have := h.first; omega)

theorem writes_string (h : Rep id P ops strs pk) (ho : pk.objs[k]? = some o)
    (hty : o.fields[j]? = some .string)
    (hs : AllocSpec pk.rope (src.length + 1) r dest offset) :
    Writes pk ((r.store (o.slot j) (le 4 offset)).store dest (src ++ [0])) k o
      (o.slotRegion j .string) ⟨dest.1, dest.2, src.length + 1⟩ := by
  refine ⟨ho, Obj.slot_within hty, hs.headed, extends_store (extends_store hs.ext _ _) _ _, ?_, ?_,
    (h.string_in hs).msgId⟩
  · have h1 := unchanged_store r (o.slot j) (le 4 offset)
    have h2 := unchanged_store (r.store (o.slot j) (le 4 offset)) dest (src ++ [0])
    rw [le_length] at h1
    rw [List.length_append, List.length_singleton] at h2
    exact (unchanged_of_mem hs.mem).trans (h1.trans h2)
  · intro a ha
    exact hs.disjoint ha

theorem rep_string (h : Rep id P ops strs pk) (ho : pk.objs[k]? = some o)
    (hty : o.fields[j]? = some .string)
    (hs : AllocSpec pk.rope (src.length + 1) r dest offset) :
    Rep id P (ops ++ [.set k j (.string src)]) (strs ++ [⟨dest.1, dest.2, src.length + 1⟩])
      { pk with rope := (r.store (o.slot j) (le 4 offset)).store dest (src ++ [0]) } := by
  have hslot : Region.Disjoint (o.slotRegion j .string) ⟨dest.1, dest.2, src.length + 1⟩ :=
    hs.disjoint ((h.objs_in k o ho).within (Obj.slot_within hty))
  have hlen : (src ++ [0]).length = src.length + 1 := by simp
  have hin := h.string_in hs
  refine h.set hty (fun s he => by cases he) (writes_string h ho hty hs)
    (List.subset_append_left _ _) ?_ ?_
  · intro a ha
    rcases List.mem_append.1 ha with ha | ha
    · exact .inl ha
    · exact .inr ⟨List.mem_singleton.1 ha, hin⟩
  · have hu : ((r.store (o.slot j) (le 4 offset)).store dest (src ++ [0])).u32 (o.slot j) =
        offset := by
      have h1 : (r.store (o.slot j) (le 4 offset)).load (o.slot j) 4 = le 4 offset := by
        have := Mem.load_store_self r.mem (o.slot j).1 (o.slot j).2 (le 4 offset)
        rwa [le_length] at this
      have h2 := unchanged_store (r.store (o.slot j) (le 4 offset)) dest (src ++ [0])
        (o.slotRegion j .string) (fun b hb => by
          rw [List.mem_singleton.1 hb, hlen]
          exact hslot)
      exact (congrArg ofLe (h2.trans h1)).trans (le_four_lt hs.small)
    refine ⟨dest, ?_, by simp, ?_⟩
    · rw [hu]
      exact hs.found (Nat.succ_pos _)
    · rw [← hlen]
      exact Mem.load_store_self _ _ _ _

end Strings

/-! ### Elements -/

theorem firstElement_append {objs : List Obj} (hne : objs ≠ []) (e : Obj) (j : ℕ) :
    firstElement (objs ++ [e]) j =
      (firstElement objs j).or (if e.field = j then some e else none) := by
  unfold firstElement
  rw [List.tail_append_of_ne_nil hne, List.find?_append]
  congr 1
  by_cases he : e.field = j
  · simp [he]
  · simp [he]

/-- `alloc_x`: `w` is the list field itself, or the next link of the last element. -/
theorem Rep.element (h : Rep id P ops strs pk) {r' : Rope} {k j : ℕ} {o e : Obj} {w : Region ℕ}
    (hw : Writes pk r' k o w e.region) (he : e.packet = false) (hj : e.field = j)
    (hin : InRope r' e.region)
    (hapart : ∀ (j' : ℕ) (ty' : FieldType), o.fields[j']? = some ty' →
      ¬ (k = 0 ∧ j' = j) → (o.slotRegion j' ty').Disjoint w)
    (hlist : ∃ s, P[j]? = some (.list s))
    (hhead : HeadHolds r' (pk.objs ++ [e]) (0, 16 + fieldOffset true P j) j) :
    Rep id P (ops ++ [.alloc j]) strs
      ⟨r', pk.objs ++ [e], Function.update pk.tail j e.overlay⟩ := by
  have hpos : 0 < pk.objs.length := (List.getElem?_eq_some_iff.1 h.record).1
  have hne : pk.objs ≠ [] := List.ne_nil_of_length_pos hpos
  -- an object is an old one, or the new one at the end
  have hobj : ∀ {k' : ℕ} {o' : Obj}, (pk.objs ++ [e])[k']? = some o' →
      pk.objs[k']? = some o' ∨ k' = pk.objs.length ∧ o' = e := by
    intro k' o' ho'
    rw [List.getElem?_append] at ho'
    split at ho'
    · exact .inl ho'
    · next hk =>
      have hk' := List.getElem?_eq_some_iff.1 ho'
      obtain ⟨hlt, hv⟩ := hk'
      simp only [List.length_singleton] at hlt
      have hz : k' - pk.objs.length = 0 := by omega
      simp only [hz, List.getElem_cons_zero] at hv
      exact .inr ⟨by omega, hv.symm⟩
  have hold : ∀ {k' : ℕ} {o' : Obj}, pk.objs[k']? = some o' → (pk.objs ++ [e])[k']? = some o' := by
    intro k' o' ho'
    rw [List.getElem?_append_left (List.getElem?_eq_some_iff.1 ho').1]
    exact ho'
  have hnew : (pk.objs ++ [e])[pk.objs.length]? = some e := by simp
  have hslot : ∀ {k' j' : ℕ} {o' : Obj} {ty' : FieldType}, pk.objs[k']? = some o' →
      o'.fields[j']? = some ty' → ¬ (k' = 0 ∧ j' = j) →
      SameAt pk.rope r' (o'.slotRegion j' ty') := by
    intro k' j' o' ty' ho' hty' hne'
    apply hw.slot h ho' hty'
    intro hk
    subst hk
    have heq : o' = o := Option.some.inj (ho'.symm.trans hw.obj)
    subst heq
    exact hapart j' ty' hty' hne'
  refine
    { headed := hw.headed, first := h.first.trans (hw.ext.len_le 0), msgId := hw.msgId h,
      record := hold h.record, elements := ?_, tails := ?_, objs_in := ?_, objs_apart := ?_,
      strs_in := fun a ha => hw.ext.inRope (h.strs_in a ha), strs_apart := ?_, known := ?_,
      vals := ?_, heads := ?_ }
  · intro k' o' hk' ho'
    rcases hobj ho' with ho' | ⟨-, rfl⟩
    · exact h.elements k' o' hk' ho'
    · exact he
  · intro j' o' ho'
    by_cases hjj : j' = j
    · subst hjj
      exact ⟨pk.objs.length, e, hpos, hnew, Function.update_self _ _ _⟩
    · rw [firstElement_append hne, if_neg (by rw [hj]; exact fun h => hjj h.symm),
        Option.or_none] at ho'
      obtain ⟨k', e', hk', he', ht⟩ := h.tails j' o' ho'
      refine ⟨k', e', hk', hold he', ?_⟩
      simp only
      rw [Function.update_of_ne hjj]
      exact ht
  · intro k' o' ho'
    rcases hobj ho' with ho' | ⟨-, rfl⟩
    · exact hw.ext.inRope (h.objs_in k' o' ho')
    · exact hin
  · intro k' k'' o' o'' hkk ho' ho''
    rcases hobj ho' with hp' | ⟨hk', hp'⟩
    · rcases hobj ho'' with hp'' | ⟨-, hp''⟩
      · exact h.objs_apart k' k'' o' o'' hkk hp' hp''
      · rw [hp'']
        exact hw.fresh _ (h.objs_in k' o' hp')
    · rcases hobj ho'' with hp'' | ⟨hk'', -⟩
      · rw [hp']
        exact (hw.fresh _ (h.objs_in k'' o'' hp'')).symm
      · omega
  · intro k' o' ho' a ha
    rcases hobj ho' with ho' | ⟨-, rfl⟩
    · exact h.strs_apart k' o' ho' a ha
    · exact hw.fresh a (h.strs_in a ha)
  · intro k' j' v hv
    rw [lastSet_alloc] at hv
    have := h.known k' j' v hv
    simp only [List.length_append, List.length_singleton]
    omega
  · intro k' j' o' ty' v ho' hty' hv
    rw [lastSet_alloc] at hv
    rcases hobj ho' with hp' | ⟨hk', -⟩
    · have hval := h.vals k' j' o' ty' v hp' hty' hv
      refine hval.frame hw.ext.finds (hslot hp' hty' ?_) (hw.strings h) (List.Subset.refl _)
      -- no setter is there for the list field itself
      rintro ⟨rfl, rfl⟩
      have heq : o' = ⟨true, 0, (0, 16), P⟩ := Option.some.inj (hp'.symm.trans h.record)
      subst heq
      obtain ⟨s, hs⟩ := hlist
      have hty : ty' = .list s := Option.some.inj (hty'.symm.trans hs)
      subst hty
      obtain ⟨bs, hbs, -⟩ := hval
      rw [inPlace_list] at hbs
      cases hbs
    · have := h.known k' j' v hv
      omega
  · intro j' s hs
    by_cases hjj : j' = j
    · rw [hjj]
      exact hhead
    · refine (h.heads j' s hs).frame hw.ext.finds (hslot h.record hs ?_) ?_
      · rintro ⟨-, h⟩
        exact hjj h
      · rw [firstElement_append hne, if_neg (by rw [hj]; exact fun h => hjj h.symm),
          Option.or_none]

theorem writes_element (h : Rep id P ops strs pk) {r : Rope} {k : ℕ} {o e : Obj} {offset : ℕ}
    {w : Ptr} (ho : pk.objs[k]? = some o)
    (hs : AllocSpec pk.rope (recordSize e.packet e.fields) r e.overlay offset)
    (hw : Region.Within ⟨w.1, w.2, 4⟩ o.region) :
    Writes pk ((r.store e.overlay (List.replicate (recordSize e.packet e.fields) 0)).store w
      (le 4 offset)) k o ⟨w.1, w.2, 4⟩ e.region := by
  have hin : InRope r e.region := hs.inRope (by have := h.first; omega)
  refine ⟨ho, hw, hs.headed, extends_store (extends_store hs.ext _ _) _ _, ?_,
    fun a ha => hs.disjoint ha, hin.msgId⟩
  have h1 := unchanged_store r e.overlay (List.replicate (recordSize e.packet e.fields) 0)
  have h2 := unchanged_store
    (r.store e.overlay (List.replicate (recordSize e.packet e.fields) 0)) w (le 4 offset)
  rw [List.length_replicate] at h1
  rw [le_length] at h2
  have h3 := (unchanged_of_mem hs.mem).trans (h1.trans h2)
  intro a ha
  apply h3 a
  intro b hb
  apply ha b
  simp only [List.nil_append, List.singleton_append, List.mem_cons, List.not_mem_nil,
    or_false] at hb ⊢
  exact hb.symm

theorem recordSize_struct_pos (fields : List FieldType) : 0 < recordSize false fields := by
  unfold recordSize fieldOffset
  have : (if false = true then 0 else 4) = 4 := rfl
  omega

/-- `alloc_x` links the new element from the list field if that holds 0, and else from the last
element. -/
theorem allocElement_cases (h : Rep id P ops strs pk) {C j s : ℕ} {fields : List FieldType}
    {pk' : Packer} (hj : P[j]? = some (.list s))
    (ha : allocElement C pk ⟨true, 0, (0, 16), P⟩ j fields = some pk') :
    ∃ r elov offset w, AllocSpec pk.rope (recordSize false fields) r elov offset ∧
      pk' = ⟨(r.store elov (List.replicate (recordSize false fields) 0)).store w (le 4 offset),
        pk.objs ++ [⟨false, j, elov, fields⟩], Function.update pk.tail j elov⟩ ∧
      (pk.rope.u32 (0, 16 + fieldOffset true P j) = 0 ∧ w = (0, 16 + fieldOffset true P j) ∨
        pk.rope.u32 (0, 16 + fieldOffset true P j) ≠ 0 ∧ w = pk.tail j) := by
  unfold allocElement at ha
  simp only [Option.bind_eq_bind, Option.bind_eq_some_iff, Option.some.injEq] at ha
  obtain ⟨⟨r, elov, offset⟩, halloc, rfl⟩ := ha
  have hs := allocBytes_spec h.headed halloc
  -- the list field still holds what it held before
  have hload : (r.store elov (List.replicate (recordSize false fields) 0)).u32
      (0, 16 + fieldOffset true P j) = pk.rope.u32 (0, 16 + fieldOffset true P j) := by
    have h1 := (unchanged_of_mem hs.mem).trans
      (unchanged_store r elov (List.replicate (recordSize false fields) 0))
    have hd := hs.disjoint ((h.objs_in 0 _ h.record).within (Obj.slot_within hj))
    refine congrArg ofLe (h1 (Obj.slotRegion ⟨true, 0, (0, 16), P⟩ j (.list s)) ?_)
    intro b hb
    rw [List.nil_append] at hb
    rw [List.mem_singleton.1 hb, List.length_replicate]
    exact hd
  have hcond : ofLe ((r.store elov (List.replicate (recordSize false fields) 0)).load
      (Obj.slot ⟨true, 0, (0, 16), P⟩ j) 4) = pk.rope.u32 (0, 16 + fieldOffset true P j) := hload
  simp only [hcond]
  by_cases hz : pk.rope.u32 (0, 16 + fieldOffset true P j) = 0
  · exact ⟨r, elov, offset, _, hs, by rw [if_pos hz]; rfl, .inl ⟨hz, rfl⟩⟩
  · exact ⟨r, elov, offset, _, hs, by rw [if_neg hz], .inr ⟨hz, rfl⟩⟩

theorem u32_store {r : Rope} {w : Ptr} {n : ℕ} (h : n < 2 ^ 31) : (r.store w (le 4 n)).u32 w = n := by
  have := Mem.load_store_self r.mem w.1 w.2 (le 4 n)
  rw [le_length] at this
  exact (congrArg ofLe this).trans (le_four_lt h)

theorem rep_element (h : Rep id P ops strs pk) {C j s : ℕ} {fields : List FieldType}
    {pk' : Packer} (hj : P[j]? = some (.list s))
    (ha : allocElement C pk ⟨true, 0, (0, 16), P⟩ j fields = some pk') :
    Rep id P (ops ++ [.alloc j]) strs pk' := by
  obtain ⟨r, elov, offset, w, hs, rfl, hcase⟩ := allocElement_cases h hj ha
  have hin : InRope r (Obj.region ⟨false, j, elov, fields⟩) :=
    hs.inRope (by have := h.first; omega)
  have hfound := hs.found (recordSize_struct_pos fields)
  have hpos : 0 < pk.objs.length := (List.getElem?_eq_some_iff.1 h.record).1
  have hne : pk.objs ≠ [] := List.ne_nil_of_length_pos hpos
  have hfirst := firstElement_append hne ⟨false, j, elov, fields⟩ j
  have hheads := h.heads j s hj
  unfold HeadHolds at hheads
  rcases hcase with ⟨hz, rfl⟩ | ⟨hz, rfl⟩
  · have hnone : firstElement pk.objs j = none := by
      cases hf : firstElement pk.objs j with
      | none => rfl
      | some o =>
        rw [hf] at hheads
        exact absurd hz hheads.1
    have hwithin : (Obj.slotRegion ⟨true, 0, (0, 16), P⟩ j (.list s)).Within
        (Obj.region ⟨true, 0, (0, 16), P⟩) := Obj.slot_within hj
    have hw := writes_element (e := ⟨false, j, elov, fields⟩)
      (w := (0, 16 + fieldOffset true P j)) h h.record hs hwithin
    refine Rep.element h hw rfl rfl hin ?_ ⟨s, hj⟩ ?_
    · intro j' ty' hty' hne'
      exact Obj.slots_disjoint hty' hj fun he => hne' ⟨rfl, he⟩
    · unfold HeadHolds
      rw [hfirst, hnone]
      simp only [if_true, Option.none_or]
      rw [u32_store hs.small]
      have hp := hs.pos
      exact ⟨by omega, hfound⟩
  · cases hf : firstElement pk.objs j with
    | none =>
      rw [hf] at hheads
      exact absurd hheads hz
    | some first =>
      rw [hf] at hheads
      obtain ⟨k, o', hk, ho', ht⟩ := h.tails j first hf
      have hpk := h.elements k o' hk ho'
      have hw := writes_element (e := ⟨false, j, elov, fields⟩) h ho' hs (Obj.next_within hpk)
      rw [ht]
      refine Rep.element h hw rfl rfl hin ?_ ⟨s, hj⟩ ?_
      · intro j' ty' hty' _
        exact Obj.next_disjoint hpk
      · refine (h.heads j s hj).frame hw.ext.finds ?_ ?_
        · apply hw.slot h h.record hj
          intro h0
          omega
        · rw [hfirst, hf, Option.some_or]

/-! ### Runs -/

theorem rep_exec (h : Rep id P ops strs pk) {C : ℕ} {structs : ℕ → List FieldType} {op : Op}
    {pk' : Packer} (he : exec C structs pk op = some pk') :
    ∃ strs', Rep id P (ops ++ [op]) strs' pk' := by
  cases op with
  | set k j v =>
    obtain ⟨o, ty, ho, hty, ⟨src, r, dest, offset, rfl, rfl, -, ha, rfl⟩ | ⟨bs, hbs, rfl⟩⟩ := exec_set_cases he
    · exact ⟨_, rep_string h ho hty (allocBytes_spec h.headed ha)⟩
    · exact ⟨strs, rep_inPlace h ho hty hbs⟩
  | alloc j =>
    obtain ⟨o, s, ho, hty, ha⟩ := exec_alloc_cases he
    obtain rfl := Option.some.inj (ho.symm.trans h.record)
    exact ⟨strs, rep_element h hty ha⟩

theorem rep_run {C : ℕ} {structs : ℕ → List FieldType} {ops' : List Op} {pk' : Packer}
    (h : Rep id P ops strs pk) (hrun : execAll C structs pk ops' = some pk') :
    ∃ strs', Rep id P (ops ++ ops') strs' pk' :=
  execAll_invariant (I := fun ops pk => ∃ strs, Rep id P ops strs pk) ops
    (fun _ _ _ _ ⟨_, hrep⟩ he => rep_exec hrep he) ⟨strs, h⟩ hrun

end Steps

/-- A packet whose record fits in the first block is opened there, with every field zero. -/
theorem openPacker_first {C id : ℕ} {P : List FieldType} {mem : Mem ℕ} {pk : Packer}
    (hfit : recordSize true P + 16 ≤ C) (h : openPacker C mem id P = some pk) :
    pk = ⟨⟨[⟨C, 16 + recordSize true P⟩], ((mem.store 0 12 (le 4 id)).store 0 16
      (List.replicate (recordSize true P) 0)).store 0 8 (le 4 0)⟩, [⟨true, 0, (0, 16), P⟩],
      fun _ => (0, 0)⟩ := by
  unfold openPacker at h
  rw [packetBaseOpen_first hfit] at h
  simp only [Option.bind_eq_bind, Option.bind_eq_some_iff, Option.ite_none_right_eq_some,
    Option.some.injEq] at h
  obtain ⟨_, ⟨-, rfl⟩, rfl⟩ := h
  rfl

theorem rep_open {C id : ℕ} {P : List FieldType} {mem : Mem ℕ} {pk : Packer}
    (hfit : recordSize true P + 16 ≤ C) (h : openPacker C mem id P = some pk) :
    Rep id P [] [] pk := by
  obtain rfl := openPacker_first hfit h
  have hobj : ∀ {k : ℕ} {o : Obj}, ([⟨true, 0, (0, 16), P⟩] : List Obj)[k]? = some o →
      k = 0 ∧ o = ⟨true, 0, (0, 16), P⟩ := by
    intro k o ho
    cases k with
    | zero => exact ⟨rfl, (Option.some.inj ho).symm⟩
    | succ k => simp at ho
  refine
    { headed := ?_, first := ?_, msgId := ?_, record := rfl, elements := ?_, tails := ?_,
      objs_in := ?_, objs_apart := ?_, strs_in := ?_, strs_apart := ?_, known := ?_, vals := ?_,
      heads := ?_ }
  · intro t ht
    rw [List.mem_singleton.1 ht]
    simp only
    omega
  · simp [Rope.len]
  · simp only [Rope.load]
    rw [Mem.load_store_of_disjoint _ (.inr (.inr (by simp))),
      Mem.load_store_of_disjoint _ (.inr (.inl (by simp)))]
    have := Mem.load_store_self mem 0 12 (le 4 id)
    rwa [le_length] at this
  · intro k o hk ho
    have := (hobj ho).1
    omega
  · intro j o ho
    simp [firstElement] at ho
  · intro k o ho
    rw [(hobj ho).2]
    exact ⟨by simp [Obj.region, Rope.len], by simp [Obj.region], fun _ => by simp [Obj.region]⟩
  · intro k k' o o' hk ho ho'
    have h1 := (hobj ho).1
    have h2 := (hobj ho').1
    omega
  · intro g hg
    cases hg
  · intro k o _ g hg
    cases hg
  · intro k j v hv
    simp [lastSet] at hv
  · intro k j o ty v _ _ hv
    simp [lastSet] at hv
  · intro j s hj
    show ofLe (Mem.load _ 0 (16 + fieldOffset true P j) 4) = 0
    have hwithin := Obj.slot_within (o := ⟨true, 0, (0, 16), P⟩) hj
    rw [Mem.load_store_of_disjoint _ (.inr (.inr (by simp only [le_length]; omega)))]
    apply load_zeros
    have := hwithin.2.2
    simp only [Obj.slotRegion, Obj.slot, Obj.region, fieldWidth, if_true] at this
    omega

end Netp.Genf
