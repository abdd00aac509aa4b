import Netp.Genf.Offsets
import Netp.Genf.PacketRoundTrip

/-! # List fields

`Record::S`, the iterator that `genf/record.lm` generates for a struct, over the elements that
`alloc_x` appended to a packet.

The offsets in the list field and in the next links lead from element to element in the order of
their allocation, and 0 stands behind the last (`Leads`). A setter writes no link, and `alloc_x`
one: the list field itself, or the link of the last element (`Linked`).
-/

namespace Netp.Genf
open Netp.Lib
set_option autoImplicit false

/-! ## The generated iterator -/

/-- `Record::S`. -/
structure StructRecord where
  members : ℕ → Option RecField
  next : ℕ
  offset : ℕ

namespace StructRecord

/-- Member `j` in `load`. The record has no member for a list. -/
def field (r : Rope) (overlay : Ptr) (offset : ℕ) : FieldType → Option RecField
  | .bool => some (.bool (r.mem overlay.1 (overlay.2 + offset) != 0))
  | .int => some (.int (BitVec.ofNat 32 (r.u32 (overlay.1, overlay.2 + offset))))
  | .uint => some (.uint (BitVec.ofNat 32 (r.u32 (overlay.1, overlay.2 + offset))))
  | .long => some (.long (BitVec.ofNat 64 (r.u64 (overlay.1, overlay.2 + offset))))
  | .ulong => some (.ulong (BitVec.ofNat 64 (r.u64 (overlay.1, overlay.2 + offset))))
  | .string => some (.str (pktFind r (r.u32 (overlay.1, overlay.2 + offset))))
  | .char n => some (.chr (r.load (overlay.1, overlay.2 + offset) n))
  | .list _ => none

/-- What `load` assigns with this overlay. -/
def loaded (r : Rope) (fields : List FieldType) (overlay : Ptr) (offset : ℕ) : StructRecord where
  members j := fields[j]?.bind (field r overlay (fieldOffset false fields j))
  next := r.u32 overlay
  offset := offset

/-- `load` of the element at this offset; `none` where it goes through a null overlay, or out of the block
that the overlay is in. `overlay` is declared only in a struct that has a field, and the next link is read
through it in any, so there is no `load` without fields. -/
def load (r : Rope) (fields : List FieldType) (offset : ℕ) : Option StructRecord :=
  if fields = [] then none
  else
    (pktFind r offset).bind fun overlay =>
      if overlay.2 + recordSize false fields ≤ r.len overlay.1 then
        some (loaded r fields overlay offset)
      else none

/-- The constructor. With offset 0 the members keep what was in memory. -/
def new (junk : StructRecord) (r : Rope) (fields : List FieldType) (offset : ℕ) :
    Option StructRecord :=
  if offset = 0 then some { junk with offset := 0 } else load r fields offset

def advance (r : Rope) (fields : List FieldType) (s : StructRecord) : Option StructRecord :=
  if s.next = 0 then some { s with offset := 0 } else load r fields s.next

def valid (s : StructRecord) : Bool := s.offset != 0

/-- `for ( ; s.valid(); s.advance() )`: the records visited, in at most this many rounds. -/
def visit (r : Rope) (fields : List FieldType) : ℕ → StructRecord → Option (List StructRecord)
  | 0, _ => none
  | n + 1, s =>
      if s.valid then (s.advance r fields).bind fun s' => (visit r fields n s').map (s :: ·)
      else some []

theorem load_iff {r : Rope} {fields : List FieldType} {offset : ℕ} {s : StructRecord} :
    load r fields offset = some s ↔ fields ≠ [] ∧ ∃ overlay, pktFind r offset = some overlay ∧
      overlay.2 + recordSize false fields ≤ r.len overlay.1 ∧ loaded r fields overlay offset = s := by
  unfold load
  by_cases hfields : fields = []
  · simp [hfields]
  · simp [hfields, Option.bind_eq_some_iff]

end StructRecord

/-- `packet_gen.cc` compiles: `structs` are the structs of the whole definition, and the `load` of each needs
a field. -/
def Compiles (structs : ℕ → List FieldType) : Prop := ∀ s, structs s ≠ []

/-! ## Which objects are elements -/

/-- The list fields of the `alloc_x` calls, in order. -/
def allocs (ops : List Op) : List ℕ :=
  ops.filterMap fun
    | .alloc j => some j
    | .set _ _ _ => none

/-- The objects allocated for list field `j`, in order. The packet is object 0. -/
def appended (ops : List Op) (j : ℕ) : List ℕ :=
  ((allocs ops).zipIdx 1).filterMap fun p => if p.1 = j then some p.2 else none

section Appended
variable (ops : List Op) (i j k : ℕ)

@[simp] theorem allocs_set (v : Value) : allocs (ops ++ [.set k i v]) = allocs ops := by
  simp [allocs]

@[simp] theorem allocs_alloc : allocs (ops ++ [.alloc i]) = allocs ops ++ [i] := by
  simp [allocs]

@[simp] theorem appended_set (v : Value) : appended (ops ++ [.set k i v]) j = appended ops j := by
  simp [appended]

theorem appended_alloc : appended (ops ++ [.alloc i]) j =
    if i = j then appended ops j ++ [(allocs ops).length + 1] else appended ops j := by
  unfold appended
  rw [allocs_alloc, List.zipIdx_append, List.filterMap_append]
  by_cases h : i = j
  · simp [h, Nat.add_comm]
  · simp [h]

variable {ops j k}

theorem mem_appended : k ∈ appended ops j ↔ 0 < k ∧ (allocs ops)[k - 1]? = some j := by
  simp only [appended, List.mem_filterMap, Option.ite_none_right_eq_some, Option.some.injEq,
    Prod.exists, List.mk_mem_zipIdx_iff_le_and_getElem?_sub]
  constructor
  · rintro ⟨a, b, ⟨hb, ha⟩, rfl, rfl⟩
    exact ⟨hb, ha⟩
  · rintro ⟨hk, hj⟩
    exact ⟨j, k, ⟨hk, hj⟩, rfl, rfl⟩

theorem appended_le (h : k ∈ appended ops j) : k ≤ (allocs ops).length := by
  have := (List.getElem?_eq_some_iff.1 (mem_appended.1 h).2).1
  omega

theorem appended_inj {i : ℕ} (hi : k ∈ appended ops i) (hj : k ∈ appended ops j) : i = j :=
  Option.some.inj ((mem_appended.1 hi).2.symm.trans (mem_appended.1 hj).2)

variable (ops j) in
theorem appended_pairwise : (appended ops j).Pairwise (· < ·) := by
  unfold appended
  generalize allocs ops = l
  suffices h : ∀ n, ((l.zipIdx n).filterMap fun p =>
      if p.1 = j then some p.2 else none).Pairwise (· < ·) from h 1
  induction l with
  | nil => simp
  | cons i l ih =>
    intro n
    rw [List.zipIdx_cons, List.filterMap_cons]
    by_cases h : i = j
    · simp only [if_pos h]
      refine List.pairwise_cons.2 ⟨?_, ih (n + 1)⟩
      intro m hm
      simp only [List.mem_filterMap, Option.ite_none_right_eq_some, Option.some.injEq,
        Prod.exists, List.mk_mem_zipIdx_iff_le_and_getElem?_sub] at hm
      obtain ⟨_, b, ⟨hb, -⟩, -, rfl⟩ := hm
      exact hb
    · simp only [if_neg h]
      exact ih (n + 1)

end Appended

/-! ## Links -/

/-- From offset `off` the links lead through the objects `ks`, and to 0 behind the last. -/
def Leads (r : Rope) (objs : List Obj) : ℕ → List ℕ → Prop
  | off, [] => off = 0
  | off, k :: ks => off ≠ 0 ∧ ∃ o, objs[k]? = some o ∧ pktFind r off = some o.overlay ∧
      Leads r objs (r.u32 o.overlay) ks

/-- The next link of an object. -/
def Obj.nextRegion (o : Obj) : Region ℕ := ⟨o.overlay.1, o.overlay.2, 4⟩

section Leads
variable {r r' : Rope} {objs objs' : List Obj} {off : ℕ} {ks : List ℕ}

theorem Leads.frame (h : Leads r objs off ks) (hfind : Finds r r')
    (hobjs : ∀ k ∈ ks, ∀ o, objs[k]? = some o → objs'[k]? = some o ∧ SameAt r r' o.nextRegion) :
    Leads r' objs' off ks := by
  induction ks generalizing off with
  | nil => exact h
  | cons k ks ih =>
    obtain ⟨hne, o, ho, hp, hrest⟩ := h
    obtain ⟨ho', hsame⟩ := hobjs k List.mem_cons_self o ho
    have hu : r'.u32 o.overlay = r.u32 o.overlay := congrArg ofLe hsame
    refine ⟨hne, o, ho', hfind hp, ?_⟩
    rw [hu]
    exact ih hrest fun k hk => hobjs k (List.mem_cons_of_mem _ hk)

theorem Leads.snoc {k n : ℕ} {o e : Obj} (h : Leads r objs off (ks ++ [k])) (hfind : Finds r r')
    (hobjs : ∀ k ∈ ks, ∀ o, objs[k]? = some o → objs'[k]? = some o ∧ SameAt r r' o.nextRegion)
    (ho : objs[k]? = some o) (ho' : objs'[k]? = some o) (hnext : r'.u32 o.overlay ≠ 0)
    (he : objs'[n]? = some e) (hfound : pktFind r' (r'.u32 o.overlay) = some e.overlay)
    (hlast : r'.u32 e.overlay = 0) : Leads r' objs' off (ks ++ [k, n]) := by
  induction ks generalizing off with
  | nil =>
    obtain ⟨hne, o', ho'', hp, -⟩ := h
    have heq : o' = o := Option.some.inj (ho''.symm.trans ho)
    subst heq
    exact ⟨hne, o', ho', hfind hp, hnext, e, he, hfound, hlast⟩
  | cons m ks ih =>
    obtain ⟨hne, o', ho'', hp, hrest⟩ := h
    obtain ⟨hm, hsame⟩ := hobjs m List.mem_cons_self o' ho''
    have hu : r'.u32 o'.overlay = r.u32 o'.overlay := congrArg ofLe hsame
    refine ⟨hne, o', hm, hfind hp, ?_⟩
    rw [hu]
    exact ih hrest fun k hk => hobjs k (List.mem_cons_of_mem _ hk)

end Leads

/-- Every list field leads through its elements, and `tail_x` is the last of them. -/
structure Linked (structs : ℕ → List FieldType) (P : List FieldType) (ops : List Op)
    (pk : Packer) : Prop where
  count : pk.objs.length = (allocs ops).length + 1
  fields : ∀ j s, P[j]? = some (.list s) → ∀ k ∈ appended ops j, ∀ o, pk.objs[k]? = some o →
    o.fields = structs s
  tails : ∀ j k, (appended ops j).getLast? = some k →
    ∃ o, pk.objs[k]? = some o ∧ pk.tail j = o.overlay
  leads : ∀ j s, P[j]? = some (.list s) →
    Leads pk.rope pk.objs (pk.rope.u32 (0, 16 + fieldOffset true P j)) (appended ops j)

section Linked
variable {id : ℕ} {structs : ℕ → List FieldType} {P : List FieldType} {ops : List Op}
  {strs : List (Region ℕ)} {pk : Packer}

theorem Rep.appended_packet (h : Rep id P ops strs pk) {j k : ℕ} {o : Obj}
    (hk : k ∈ appended ops j) (ho : pk.objs[k]? = some o) : o.packet = false :=
  h.elements k o (mem_appended.1 hk).1 ho

theorem Linked.set (hl : Linked structs P ops pk) (h : Rep id P ops strs pk) {r' : Rope} {k j : ℕ}
    {o : Obj} {ty : FieldType} {g : Region ℕ} (hty : o.fields[j]? = some ty)
    (hlist : ∀ s, ty ≠ .list s) (hw : Writes pk r' k o (o.slotRegion j ty) g) (v : Value) :
    Linked structs P (ops ++ [.set k j v]) { pk with rope := r' } := by
  refine ⟨?_, ?_, ?_, ?_⟩
  · rw [allocs_set]
    exact hl.count
  · intro j' s hs k' hk'
    rw [appended_set] at hk'
    exact hl.fields j' s hs k' hk'
  · intro j' k' hk'
    rw [appended_set] at hk'
    exact hl.tails j' k' hk'
  · intro j' s hs
    have hhead : r'.u32 (0, 16 + fieldOffset true P j') =
        pk.rope.u32 (0, 16 + fieldOffset true P j') := by
      refine congrArg ofLe (hw.slot h h.record hs fun hk => ?_)
      subst hk
      have he : o = ⟨true, 0, (0, 16), P⟩ := Option.some.inj (hw.obj.symm.trans h.record)
      subst he
      apply Obj.slots_disjoint hs hty
      rintro rfl
      exact hlist s (Option.some.inj (hty.symm.trans hs))
    rw [appended_set, hhead]
    refine (hl.leads j' s hs).frame hw.ext.finds fun k' hk' o' ho' => ⟨ho', ?_⟩
    have hp := h.appended_packet hk' ho'
    apply hw.part h ho' (Obj.next_within hp)
    intro hk
    subst hk
    have he : o' = o := Option.some.inj (ho'.symm.trans hw.obj)
    subst he
    exact (Obj.next_disjoint hp).symm

section Element
variable {j s offset : ℕ} {r : Rope} {elov w : Ptr}

/-- The rope after `alloc_x`. -/
abbrev linkedRope (structs : ℕ → List FieldType) (s : ℕ) (r : Rope) (elov w : Ptr) (offset : ℕ) :
    Rope := (r.store elov (List.replicate (recordSize false (structs s)) 0)).store w (le 4 offset)

theorem Writes.last {k : ℕ} {o : Obj} (h : Rep id P ops strs pk)
    (hw : Writes pk (linkedRope structs s r elov w offset) k o ⟨w.1, w.2, 4⟩
      (Obj.region ⟨false, j, elov, structs s⟩)) :
    (linkedRope structs s r elov w offset).u32 elov = 0 := by
  have hapart : Region.Disjoint ⟨elov.1, elov.2, 4⟩ ⟨w.1, w.2, 4⟩ := by
    have hin := (h.objs_in k o hw.obj).within hw.within
    exact ((hw.fresh _ hin).symm).within_left
      (Obj.next_within (o := ⟨false, j, elov, structs s⟩) rfl)
  have h1 := unchanged_store (r.store elov (List.replicate (recordSize false (structs s)) 0)) w
    (le 4 offset) ⟨elov.1, elov.2, 4⟩ fun b hb => by
      rw [List.mem_singleton.1 hb, le_length]
      exact hapart
  have hsize : 0 + 4 ≤ recordSize false (structs s) := Nat.le_add_right 4 _
  exact (congrArg ofLe h1).trans (load_zeros r.mem (b := elov.1) (i := elov.2) hsize)

/-- What `alloc_x` does to the lists, given where it leads from the list field it appends to. -/
theorem Linked.element (hl : Linked structs P ops pk) (h : Rep id P ops strs pk) {k : ℕ} {o : Obj}
    (hw : Writes pk (linkedRope structs s r elov w offset) k o ⟨w.1, w.2, 4⟩
      (Obj.region ⟨false, j, elov, structs s⟩)) (hj : P[j]? = some (.list s))
    (hk : k = 0 ∨ k ∈ appended ops j)
    (hslots : ∀ j' s', P[j']? = some (.list s') → j' ≠ j → k = 0 →
      (Obj.slotRegion ⟨true, 0, (0, 16), P⟩ j' (.list s')).Disjoint ⟨w.1, w.2, 4⟩)
    (hleads : Leads (linkedRope structs s r elov w offset)
      (pk.objs ++ [⟨false, j, elov, structs s⟩])
      ((linkedRope structs s r elov w offset).u32 (0, 16 + fieldOffset true P j))
      (appended ops j ++ [(allocs ops).length + 1])) :
    Linked structs P (ops ++ [.alloc j]) ⟨linkedRope structs s r elov w offset,
      pk.objs ++ [⟨false, j, elov, structs s⟩], Function.update pk.tail j elov⟩ := by
  have hnew : (pk.objs ++ [⟨false, j, elov, structs s⟩])[(allocs ops).length + 1]? =
      some ⟨false, j, elov, structs s⟩ := by
    rw [← hl.count]
    simp
  have hold : ∀ {k' : ℕ} {o' : Obj}, pk.objs[k']? = some o' →
      (pk.objs ++ [⟨false, j, elov, structs s⟩])[k']? = some o' := by
    intro k' o' ho'
    rw [List.getElem?_append_left (List.getElem?_eq_some_iff.1 ho').1]
    exact ho'
  -- an element appended before is an old object
  have hback : ∀ {i k' : ℕ} {o' : Obj}, k' ∈ appended ops i →
      (pk.objs ++ [⟨false, j, elov, structs s⟩])[k']? = some o' → pk.objs[k']? = some o' := by
    intro i k' o' hk' ho'
    have hlt : k' < pk.objs.length := by
      have := appended_le hk'
      rw [hl.count]
      omega
    rwa [List.getElem?_append_left hlt] at ho'
  refine ⟨?_, ?_, ?_, ?_⟩
  · simp [hl.count]
  · intro j' s' hs' k' hk' o' ho'
    rw [appended_alloc] at hk'
    split at hk'
    · next he =>
      subst he
      rcases List.mem_append.1 hk' with hk' | hk'
      · exact hl.fields j s' hs' k' hk' o' (hback hk' ho')
      · rw [List.mem_singleton.1 hk', hnew] at ho'
        rw [← Option.some.inj ho']
        have : s = s' := by
          have := hj.symm.trans hs'
          simpa using this
        rw [this]
    · exact hl.fields j' s' hs' k' hk' o' (hback hk' ho')
  · intro j' k' hk'
    rw [appended_alloc] at hk'
    split at hk'
    · next he =>
      subst he
      rw [List.getLast?_append, List.getLast?_singleton, Option.some_or, Option.some.injEq] at hk'
      rw [← hk']
      exact ⟨_, hnew, Function.update_self _ _ _⟩
    · next he =>
      obtain ⟨o', ho', ht⟩ := hl.tails j' k' hk'
      refine ⟨o', hold ho', ?_⟩
      simp only
      rw [Function.update_of_ne (Ne.symm he)]
      exact ht
  · intro j' s' hs'
    rw [appended_alloc]
    split
    · next he =>
      subst he
      exact hleads
    · next he =>
      have hhead : (linkedRope structs s r elov w offset).u32 (0, 16 + fieldOffset true P j') =
          pk.rope.u32 (0, 16 + fieldOffset true P j') :=
        congrArg ofLe (hw.slot h h.record hs' fun hk0 => hslots j' s' hs' (Ne.symm he) hk0.symm)
      simp only
      rw [hhead]
      refine (hl.leads j' s' hs').frame hw.ext.finds fun k' hk' o' ho' => ⟨hold ho', ?_⟩
      apply hw.part h ho' (Obj.next_within (h.appended_packet hk' ho'))
      intro hkk
      subst hkk
      rcases hk with h0 | hk
      · exact absurd h0 (Nat.ne_of_gt (mem_appended.1 hk').1)
      · exact absurd (appended_inj hk hk') he

theorem Linked.alloc (hl : Linked structs P ops pk) (h : Rep id P ops strs pk) {C : ℕ}
    {pk' : Packer} (hj : P[j]? = some (.list s))
    (ha : allocElement C pk ⟨true, 0, (0, 16), P⟩ j (structs s) = some pk') :
    Linked structs P (ops ++ [.alloc j]) pk' := by
  obtain ⟨r, elov, offset, w, hs, rfl, hcase⟩ := allocElement_cases h hj ha
  have hfound := hs.found (recordSize_struct_pos (structs s))
  have hpos := hs.pos
  have hnew : (pk.objs ++ [⟨false, j, elov, structs s⟩])[(allocs ops).length + 1]? =
      some ⟨false, j, elov, structs s⟩ := by
    rw [← hl.count]
    simp
  have hleads := hl.leads j s hj
  rcases hcase with ⟨hz, rfl⟩ | ⟨hz, rfl⟩
  · -- the first element of the list
    have hnil : appended ops j = [] := by
      cases ha : appended ops j with
      | nil => rfl
      | cons k ks =>
        rw [ha] at hleads
        exact absurd hz hleads.1
    have hwithin : (Obj.slotRegion ⟨true, 0, (0, 16), P⟩ j (.list s)).Within
        (Obj.region ⟨true, 0, (0, 16), P⟩) := Obj.slot_within hj
    have hw := writes_element (e := ⟨false, j, elov, structs s⟩)
      (w := (0, 16 + fieldOffset true P j)) h h.record hs hwithin
    refine hl.element h hw hj (.inl rfl) ?_ ?_
    · intro j' s' hs' hne _
      exact Obj.slots_disjoint (o := ⟨true, 0, (0, 16), P⟩) hs' hj hne
    · rw [hnil, u32_store hs.small]
      exact ⟨by omega, _, hnew, hfound, hw.last h⟩
  · -- behind the last one
    obtain ⟨ks, k, hks⟩ : ∃ ks k, appended ops j = ks ++ [k] := by
      rcases List.eq_nil_or_concat (appended ops j) with hnil | ⟨ks, k, hks⟩
      · rw [hnil] at hleads
        exact absurd hleads hz
      · exact ⟨ks, k, by rw [hks, List.concat_eq_append]⟩
    have hk : k ∈ appended ops j := by
      rw [hks]
      simp
    obtain ⟨o, ho, ht⟩ := hl.tails j k (by rw [hks, List.getLast?_concat])
    have hwithin := Obj.next_within (h.appended_packet hk ho)
    rw [ht]
    have hw := writes_element (e := ⟨false, j, elov, structs s⟩) h ho hs hwithin
    have hk0 : 0 ≠ k := Nat.ne_of_lt (mem_appended.1 hk).1
    have hhead : (linkedRope structs s r elov o.overlay offset).u32
        (0, 16 + fieldOffset true P j) = pk.rope.u32 (0, 16 + fieldOffset true P j) :=
      congrArg ofLe (hw.slot h h.record hj fun h0 => absurd h0 hk0)
    refine hl.element h hw hj (.inr hk) (fun _ _ _ _ h0 => absurd h0.symm hk0) ?_
    have hu : (linkedRope structs s r elov o.overlay offset).u32 o.overlay = offset :=
      u32_store hs.small
    have hold : ∀ {k' : ℕ} {o' : Obj}, pk.objs[k']? = some o' →
        (pk.objs ++ [⟨false, j, elov, structs s⟩])[k']? = some o' := by
      intro k' o' ho'
      rw [List.getElem?_append_left (List.getElem?_eq_some_iff.1 ho').1]
      exact ho'
    rw [hks] at hleads
    rw [hks, hhead, List.append_assoc]
    refine hleads.snoc hw.ext.finds ?_ ho (hold ho) (by rw [hu]; omega) hnew
      (by rw [hu]; exact hfound) (hw.last h)
    intro k' hk' o' ho'
    refine ⟨hold ho', ?_⟩
    have hmem : k' ∈ appended ops j := by
      rw [hks]
      exact List.mem_append_left _ hk'
    apply hw.part h ho' (Obj.next_within (h.appended_packet hmem ho'))
    -- the elements before it have smaller numbers
    intro hkk
    have hlt := appended_pairwise ops j
    rw [hks, List.pairwise_append] at hlt
    have := hlt.2.2 k' hk' k (List.mem_singleton_self k)
    omega

end Element

theorem Linked.exec (hl : Linked structs P ops pk) (h : Rep id P ops strs pk) {C : ℕ} {op : Op}
    {pk' : Packer} (he : exec C structs pk op = some pk') : Linked structs P (ops ++ [op]) pk' := by
  cases op with
  | set k j v =>
    obtain ⟨o, ty, ho, hty, ⟨src, r, dest, offset, rfl, rfl, -, ha, rfl⟩ | ⟨bs, hbs, rfl⟩⟩ := exec_set_cases he
    · have hw := writes_string h ho hty (allocBytes_spec h.headed ha)
      exact hl.set h hty (fun s he => by cases he) hw _
    · refine hl.set h hty ?_ (writes_inPlace h ho hty hbs) v
      rintro s rfl
      rw [inPlace_list] at hbs
      cases hbs
  | alloc j =>
    obtain ⟨o, s, ho, hty, ha⟩ := exec_alloc_cases he
    obtain rfl := Option.some.inj (ho.symm.trans h.record)
    exact hl.alloc h hty ha

theorem Linked.run (hl : Linked structs P ops pk) (h : Rep id P ops strs pk) {C : ℕ}
    {ops' : List Op} {pk' : Packer} (hrun : execAll C structs pk ops' = some pk') :
    Linked structs P (ops ++ ops') pk' := by
  refine (execAll_invariant
    (I := fun ops pk => Linked structs P ops pk ∧ ∃ strs, Rep id P ops strs pk) ops ?_ ⟨hl, strs, h⟩ hrun).1
  rintro ops pk op pk' ⟨hl, strs, h⟩ he
  exact ⟨hl.exec h he, rep_exec h he⟩

theorem linked_open {C : ℕ} {mem : Mem ℕ} (hfit : recordSize true P + 16 ≤ C)
    (hopen : openPacker C mem id P = some pk) : Linked structs P [] pk := by
  have hrep := rep_open hfit hopen
  have hobjs : pk.objs = [⟨true, 0, (0, 16), P⟩] := by rw [openPacker_first hfit hopen]
  refine ⟨by rw [hobjs]; rfl, ?_, ?_, ?_⟩
  · intro j s _ k hk
    cases hk
  · intro j k hk
    cases hk
  · intro j s hs
    have := hrep.heads j s hs
    unfold HeadHolds at this
    rw [hobjs] at this
    exact this

/-! ### The length -/

theorem openPacker_small {C : ℕ} {mem : Mem ℕ} (h : openPacker C mem id P = some pk) :
    pk.rope.length < 2 ^ 31 := by
  unfold openPacker at h
  simp only [Option.bind_eq_bind, Option.bind_eq_some_iff, Option.some.injEq] at h
  obtain ⟨⟨r, msg⟩, h, rfl⟩ := h
  exact (framed_open h).small

theorem exec_small {C : ℕ} {op : Op} {pk' : Packer} (h : pk.rope.length < 2 ^ 31)
    (he : exec C structs pk op = some pk') : pk'.rope.length < 2 ^ 31 := by
  cases op with
  | set k j v =>
    obtain ⟨o, ty, -, -, ⟨src, r, dest, offset, -, -, -, ha, rfl⟩ | ⟨bs, -, rfl⟩⟩ := exec_set_cases he
    · have hr : r.length < 2 ^ 31 := allocBytes_small ha
      exact hr
    · exact h
  | alloc j =>
    obtain ⟨o, s, -, -, he⟩ := exec_alloc_cases he
    unfold allocElement at he
    simp only [Option.bind_eq_bind, Option.bind_eq_some_iff, Option.some.injEq] at he
    obtain ⟨⟨r, elov, offset⟩, ha, rfl⟩ := he
    have hr : r.length < 2 ^ 31 := allocBytes_small ha
    simp only
    split_ifs
    · exact hr
    · exact hr

theorem execAll_small {C : ℕ} {ops' : List Op} {pk' : Packer} (h : pk.rope.length < 2 ^ 31)
    (hrun : execAll C structs pk ops' = some pk') : pk'.rope.length < 2 ^ 31 :=
  execAll_invariant (I := fun _ pk => pk.rope.length < 2 ^ 31) []
    (fun _ _ _ _ hsmall he => exec_small hsmall he) h hrun

theorem Rep.framed (h : Rep id P ops strs pk) (hsmall : pk.rope.length < 2 ^ 31) :
    Framed id pk.rope :=
  ⟨h.headed, by have := h.first; omega, hsmall, h.msgId⟩

end Linked

/-! ## The iteration on the receiver's rope -/

/-- What an element holds of a value: a `char(n)` is cut or padded with zeros to `n` bytes. -/
def elementValue : FieldType → Value → Value
  | .char n, .char bs => .char ((bs ++ List.replicate n 0).take n)
  | _, v => v

theorem bv32_u32 {r : Rope} {slot : Ptr} {v : BitVec 32} (h : r.load slot 4 = le 4 v.toNat) :
    BitVec.ofNat 32 (r.u32 slot) = v := by
  have hv : r.u32 slot = v.toNat := (congrArg ofLe h).trans (ofLe_le_of_lt v.isLt)
  rw [hv, BitVec.ofNat_toNat, BitVec.setWidth_eq]

theorem bv64_u64 {r : Rope} {slot : Ptr} {v : BitVec 64} (h : r.load slot 8 = le 8 v.toNat) :
    BitVec.ofNat 64 (r.u64 slot) = v := by
  have hv : r.u64 slot = v.toNat := (congrArg ofLe h).trans (ofLe_le_of_lt v.isLt)
  rw [hv, BitVec.ofNat_toNat, BitVec.setWidth_eq]

theorem struct_field {r : Rope} {strs : List (Region ℕ)} {overlay : Ptr} {off : ℕ}
    {ty : FieldType} {v : Value}
    (h : SlotHolds r strs false (overlay.1, overlay.2 + off) ty v) :
    ∃ f, StructRecord.field r overlay off ty = some f ∧ f.Holds r (elementValue ty v) := by
  unfold SlotHolds at h
  split at h
  · obtain ⟨p, hp, -, hbytes⟩ := h
    exact ⟨_, rfl, p, hp, hbytes⟩
  · obtain ⟨bs, hbs, hload⟩ := h
    unfold inPlace at hbs
    split at hbs
    case h_1 b _ =>
      refine ⟨_, rfl, ?_⟩
      have hb := load_singleton (hload.trans (Option.some.inj hbs).symm)
      show (r.mem overlay.1 (overlay.2 + off) != 0) = b
      rw [hb]
      cases b
      · rfl
      · rfl
    case h_2 v _ => exact ⟨_, rfl, bv32_u32 (hload.trans (Option.some.inj hbs).symm)⟩
    case h_3 v _ => exact ⟨_, rfl, bv32_u32 (hload.trans (Option.some.inj hbs).symm)⟩
    case h_4 v _ => exact ⟨_, rfl, bv64_u64 (hload.trans (Option.some.inj hbs).symm)⟩
    case h_5 v _ => exact ⟨_, rfl, bv64_u64 (hload.trans (Option.some.inj hbs).symm)⟩
    case h_6 n bs' _ =>
      refine ⟨_, rfl, ?_⟩
      simp only [Bool.false_eq_true, if_false, Option.ite_none_left_eq_some,
        Option.some.injEq] at hbs
      exact hload.trans hbs.2.symm
    case h_7 => cases hbs

/-- The iterator is at `off`; 0 is the end. -/
def StructRecord.At (r : Rope) (fields : List FieldType) (off : ℕ) (s : StructRecord) : Prop :=
  s.offset = off ∧ (off ≠ 0 → StructRecord.load r fields off = some s)

/-- The elements of a list are in the blocks where `pktFind` finds them. -/
def ElementsIn (r : Rope) (objs : List Obj) (fields : List FieldType) (ks : List ℕ) : Prop :=
  fields ≠ [] ∧ ∀ k ∈ ks, ∀ o, objs[k]? = some o →
    o.overlay.2 + recordSize false fields ≤ r.len o.overlay.1

section Iterate
variable {r : Rope} {objs : List Obj} {fields : List FieldType} {off : ℕ} {ks : List ℕ} {s junk : StructRecord}

theorem ElementsIn.tail {k : ℕ} (h : ElementsIn r objs fields (k :: ks)) : ElementsIn r objs fields ks :=
  ⟨h.1, fun k hk => h.2 k (List.mem_cons_of_mem _ hk)⟩

/-- Where the links lead the constructor and `advance` find the next record, or the end. -/
theorem Leads.load (h : Leads r objs off ks) (hin : ElementsIn r objs fields ks) (junk : StructRecord) :
    ∃ s, (if off = 0 then some { junk with offset := 0 } else StructRecord.load r fields off) = some s ∧
      s.At r fields off := by
  cases ks with
  | nil =>
    obtain rfl : off = 0 := h
    exact ⟨_, if_pos rfl, rfl, fun hne => absurd rfl hne⟩
  | cons k ks =>
    obtain ⟨hne, o, ho, hp, -⟩ := h
    have hload : StructRecord.load r fields off = some (.loaded r fields o.overlay off) :=
      StructRecord.load_iff.2 ⟨hin.1, o.overlay, hp, hin.2 k List.mem_cons_self o ho, rfl⟩
    exact ⟨_, by rw [if_neg hne, hload], rfl, fun _ => hload⟩

/-- Along the links the iterator visits the objects, one record each. -/
theorem visit_leads {Q : ℕ → StructRecord → Prop} (h : Leads r objs off ks)
    (hin : ElementsIn r objs fields ks) (hs : s.At r fields off)
    (hQ : ∀ k ∈ ks, ∀ o rec, objs[k]? = some o → (∀ j, rec.members j =
      fields[j]?.bind (StructRecord.field r o.overlay (fieldOffset false fields j))) → Q k rec)
    {n : ℕ} (hn : ks.length < n) :
    ∃ recs, StructRecord.visit r fields n s = some recs ∧ List.Forall₂ Q ks recs := by
  induction ks generalizing off s n with
  | nil =>
    obtain ⟨m, rfl⟩ : ∃ m, n = m + 1 := ⟨n - 1, by omega⟩
    have h0 : s.offset = 0 := hs.1.trans h
    refine ⟨[], ?_, List.Forall₂.nil⟩
    simp [StructRecord.visit, StructRecord.valid, h0]
  | cons k ks ih =>
    obtain ⟨m, rfl⟩ : ∃ m, n = m + 1 := ⟨n - 1, by omega⟩
    obtain ⟨hne, o, ho, hp, hrest⟩ := h
    obtain ⟨-, overlay, hp', -, hsv⟩ := StructRecord.load_iff.1 (hs.2 hne)
    obtain rfl := Option.some.inj (hp'.symm.trans hp)
    have hvalid : s.valid = true := by
      simp [StructRecord.valid, hs.1, hne]
    have hnext : s.next = r.u32 o.overlay := by
      rw [← hsv]
      rfl
    -- the record of the next element, or the one at the end
    obtain ⟨s', hs', hat'⟩ := hrest.load hin.tail s
    have hadvance : s.advance r fields = some s' := by
      rw [← hnext] at hs'
      exact hs'
    have hm : ks.length < m := by
      simp only [List.length_cons] at hn
      omega
    obtain ⟨recs, hrecs, hall⟩ :=
      ih hrest hin.tail hat' (fun k hk => hQ k (List.mem_cons_of_mem _ hk)) hm
    refine ⟨s :: recs, ?_, List.Forall₂.cons (hQ k List.mem_cons_self o s ho ?_) hall⟩
    · simp [StructRecord.visit, hvalid, hadvance, hrecs]
    · intro j
      rw [← hsv]
      rfl

end Iterate

section Received
variable {id : ℕ} {P : List FieldType} {ops : List Op} {strs : List (Region ℕ)} {pk : Packer} {r : Rope}

theorem Received.finds (hr : Received (id, pk.rope) r) (hid : id < 2 ^ 32) (hf : Framed id pk.rope) :
    Finds pk.rope r := by
  intro l p hp
  rw [pktFind_of_contents (hr.contents hid hf)]
  exact hp

theorem Received.sameAt (hr : Received (id, pk.rope) r) (hid : id < 2 ^ 32) (hf : Framed id pk.rope)
    {g : Region ℕ} (hg : InRope pk.rope g) : SameAt pk.rope r g :=
  (load_of_contents (hr.contents hid hf) (p := (g.blk, g.start)) hg.1).trans (sameAt_send hg)

/-- What is in the rope is in the received one, in the same block. -/
theorem Received.inside (hr : Received (id, pk.rope) r) (hid : id < 2 ^ 32) (hf : Framed id pk.rope)
    {g : Region ℕ} (hg : InRope pk.rope g) : g.start + g.size ≤ r.len g.blk := by
  have hlen := len_of_contents (hr.contents hid hf) g.blk
  rw [hlen]
  exact hg.1

theorem Received.msgId (hr : Received (id, pk.rope) r) (hid : id < 2 ^ 32) (hf : Framed id pk.rope)
    (h : Rep id P ops strs pk) : r.u32 (0, 12) = id := by
  have h1 : r.load (0, 12) 4 = (packetBaseSend pk.rope).load (0, 12) 4 :=
    load_of_contents (hr.contents hid hf) (by
      have : 16 ≤ pk.rope.len 0 := (Nat.le_add_right 16 _).trans h.first
      exact this)
  have h2 : (packetBaseSend pk.rope).load (0, 12) 4 = le 4 id :=
    (packetBaseSend_load pk.rope (by omega) (fun _ => le_refl _)).trans h.msgId
  exact (congrArg ofLe (h1.trans h2)).trans (ofLe_le_of_lt (by omega))

theorem Received.leads (hr : Received (id, pk.rope) r) (hid : id < 2 ^ 32) (hf : Framed id pk.rope)
    (h : Rep id P ops strs pk) {structs : ℕ → List FieldType} (hl : Linked structs P ops pk) {j s : ℕ}
    (hj : P[j]? = some (.list s)) :
    Leads r pk.objs (r.u32 (0, 16 + fieldOffset true P j)) (appended ops j) := by
  have hslot := hr.sameAt hid hf ((h.objs_in 0 _ h.record).within (Obj.slot_within hj))
  have hhead : r.u32 (0, 16 + fieldOffset true P j) = pk.rope.u32 (0, 16 + fieldOffset true P j) :=
    congrArg ofLe hslot
  rw [hhead]
  exact (hl.leads j s hj).frame (hr.finds hid hf) fun k hk o ho => ⟨ho,
    hr.sameAt hid hf ((h.objs_in k o ho).within (Obj.next_within (h.appended_packet hk ho)))⟩

/-- What was last set in a field of an element, on the receiver's rope. -/
theorem Received.element (hr : Received (id, pk.rope) r) (hid : id < 2 ^ 32) (hf : Framed id pk.rope)
    (h : Rep id P ops strs pk) {k i : ℕ} {o : Obj} {ty : FieldType} {v : Value}
    (ho : pk.objs[k]? = some o) (hp : o.packet = false) (hty : o.fields[i]? = some ty)
    (hv : lastSet ops k i = some v) :
    SlotHolds r strs false (o.overlay.1, o.overlay.2 + fieldOffset false o.fields i) ty v := by
  have hin := (h.objs_in k o ho).within (Obj.slot_within hty)
  have hholds := (h.vals k i o ty v ho hty hv).frame (hr.finds hid hf) (hr.sameAt hid hf hin)
    (fun g hg => hr.sameAt hid hf (h.strs_in g hg)) (List.Subset.refl _)
  unfold Obj.slot at hholds
  rwa [hp] at hholds

end Received

/-- On any rope that `parsePacket` has built of the packet the iteration over the record's list visits the
elements appended, in order, each with the values last set. -/
def ListRoundTrips (structs : ℕ → List FieldType) (id : ℕ) (P : List FieldType) (ops : List Op) (j s : ℕ)
    (r : Rope) : Prop :=
  Compiles structs ∧ ∀ (junk : Junk) (junk' : StructRecord), ∃ rec head first,
    dispatchPacket junk id P r = some rec ∧ rec j = some (.head head) ∧
      StructRecord.new junk' r (structs s) head = some first ∧
      ∀ n, (appended ops j).length < n → ∃ recs,
        StructRecord.visit r (structs s) n first = some recs ∧
        List.Forall₂ (fun k record => ∀ i ty v, (structs s)[i]? = some ty →
          lastSet ops k i = some v →
          ∃ f, record.members i = some f ∧ f.Holds r (elementValue ty v)) (appended ops j) recs

end Netp.Genf
