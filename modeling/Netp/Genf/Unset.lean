import Netp.Genf.RecordList

/-! # Fields that were never set

`open` and `alloc_x` fill a record with zeros, and a setter or a link writes bytes of one field only. So a
field for which no setter was called holds zeros, on the writer's rope and on the receiver's.
-/

namespace Netp.Genf
open Netp.Lib
set_option autoImplicit false

/-- A field that is no list and was not set holds zeros. -/
def Unset (ops : List Op) (pk : Packer) : Prop :=
  ∀ (k j : ℕ) (o : Obj) (ty : FieldType), pk.objs[k]? = some o → o.fields[j]? = some ty →
    (∀ s, ty ≠ .list s) → lastSet ops k j = none →
    pk.rope.load (o.slot j) (fieldWidth o.packet ty) = List.replicate (fieldWidth o.packet ty) 0

theorem load_part_zeros (m : Mem ℕ) {b i n d w : ℕ} (h : d + w ≤ n) :
    (m.store b i (List.replicate n 0)).load b (i + d) w = List.replicate w 0 := by
  rw [Mem.load_store_part _ _ _ (by simpa using h), List.drop_replicate, List.take_replicate]
  congr 1
  omega

section Unset
variable {id : ℕ} {structs : ℕ → List FieldType} {P : List FieldType} {ops : List Op}
  {strs : List (Region ℕ)} {pk : Packer} {r' : Rope} {k j : ℕ} {o : Obj} {ty : FieldType} {g : Region ℕ}

theorem Unset.set (hu : Unset ops pk) (h : Rep id P ops strs pk) (hty : o.fields[j]? = some ty)
    (hw : Writes pk r' k o (o.slotRegion j ty) g) (v : Value) :
    Unset (ops ++ [.set k j v]) { pk with rope := r' } := by
  intro k' j' o' ty' ho' hty' hlist hnone
  rw [lastSet_set] at hnone
  split at hnone
  · cases hnone
  · next hne =>
    refine (hw.slot h ho' hty' fun hk => ?_).trans (hu k' j' o' ty' ho' hty' hlist hnone)
    subst hk
    have he : o' = o := Option.some.inj (ho'.symm.trans hw.obj)
    subst he
    exact Obj.slots_disjoint hty' hty fun he => hne ⟨rfl, he.symm⟩

/-- The new element holds zeros, and of the others only a link is written. -/
theorem Unset.element {s offset : ℕ} {r : Rope} {elov w : Ptr} (hu : Unset ops pk)
    (h : Rep id P ops strs pk)
    (hw : Writes pk (linkedRope structs s r elov w offset) k o ⟨w.1, w.2, 4⟩
      (Obj.region ⟨false, j, elov, structs s⟩))
    (hlink : ∀ j' ty', o.fields[j']? = some ty' → (∀ s, ty' ≠ .list s) →
      (o.slotRegion j' ty').Disjoint ⟨w.1, w.2, 4⟩) :
    Unset (ops ++ [.alloc j]) ⟨linkedRope structs s r elov w offset,
      pk.objs ++ [⟨false, j, elov, structs s⟩], Function.update pk.tail j elov⟩ := by
  intro k' j' o' ty' ho' hty' hlist hnone
  rw [lastSet_alloc] at hnone
  simp only at ho'
  by_cases hk : k' < pk.objs.length
  · rw [List.getElem?_append_left hk] at ho'
    refine (hw.slot h ho' hty' fun hkk => ?_).trans (hu k' j' o' ty' ho' hty' hlist hnone)
    subst hkk
    have he : o' = o := Option.some.inj (ho'.symm.trans hw.obj)
    subst he
    exact hlink j' ty' hty' hlist
  · obtain ⟨-, rfl⟩ : k' - pk.objs.length = 0 ∧ o' = ⟨false, j, elov, structs s⟩ := by
      rw [List.getElem?_append_right (Nat.le_of_not_lt hk)] at ho'
      cases hd : k' - pk.objs.length with
      | zero =>
        rw [hd] at ho'
        exact ⟨rfl, (Option.some.inj ho').symm⟩
      | succ d =>
        rw [hd] at ho'
        cases ho'
    have hwithin := Obj.slot_within hty'
    have hin := (h.objs_in k o hw.obj).within hw.within
    have hapart := ((hw.fresh _ hin).symm).within_left hwithin
    have hkept := unchanged_store
      (r.store elov (List.replicate (recordSize false (structs s)) 0)) w (le 4 offset) _ fun b hb => by
        rw [List.mem_singleton.1 hb, le_length]
        exact hapart
    have hsize : fieldOffset false (structs s) j' + fieldWidth false ty' ≤
        recordSize false (structs s) := by
      have := hwithin.2.2
      simp only [Obj.slotRegion, Obj.slot, Obj.region] at this
      omega
    exact hkept.trans (load_part_zeros r.mem hsize)

theorem Unset.alloc {C s : ℕ} {pk' : Packer} (hu : Unset ops pk) (h : Rep id P ops strs pk) (hj : P[j]? = some (.list s))
    (ha : allocElement C pk ⟨true, 0, (0, 16), P⟩ j (structs s) = some pk') :
    Unset (ops ++ [.alloc j]) pk' := by
  obtain ⟨r, elov, offset, w, hs, rfl, hcase⟩ := allocElement_cases h hj ha
  rcases hcase with ⟨-, rfl⟩ | ⟨hz, rfl⟩
  · have hwithin : (Obj.slotRegion ⟨true, 0, (0, 16), P⟩ j (.list s)).Within
        (Obj.region ⟨true, 0, (0, 16), P⟩) := Obj.slot_within hj
    have hw := writes_element (e := ⟨false, j, elov, structs s⟩)
      (w := (0, 16 + fieldOffset true P j)) h h.record hs hwithin
    refine hu.element h hw fun j' ty' hty' hlist => ?_
    apply Obj.slots_disjoint (o := ⟨true, 0, (0, 16), P⟩) hty' hj
    rintro rfl
    exact hlist s (Option.some.inj (hty'.symm.trans hj))
  · have hheads := h.heads j s hj
    unfold HeadHolds at hheads
    cases hf : firstElement pk.objs j with
    | none =>
      rw [hf] at hheads
      exact absurd hheads hz
    | some first =>
      obtain ⟨k, o, hk, ho, ht⟩ := h.tails j first hf
      have hp := h.elements k o hk ho
      rw [ht]
      exact hu.element h (writes_element (e := ⟨false, j, elov, structs s⟩) h ho hs (Obj.next_within hp))
        fun j' ty' _ _ => Obj.next_disjoint hp

theorem Unset.exec {C : ℕ} {op : Op} {pk' : Packer} (hu : Unset ops pk) (h : Rep id P ops strs pk)
    (he : exec C structs pk op = some pk') : Unset (ops ++ [op]) pk' := by
  cases op with
  | set k j v =>
    obtain ⟨o, ty, ho, hty, ⟨src, r, dest, offset, rfl, rfl, -, ha, rfl⟩ | ⟨bs, hbs, rfl⟩⟩ := exec_set_cases he
    · exact hu.set h hty (writes_string h ho hty (allocBytes_spec h.headed ha)) _
    · exact hu.set h hty (writes_inPlace h ho hty hbs) v
  | alloc j =>
    obtain ⟨o, s, ho, hty, ha⟩ := exec_alloc_cases he
    obtain rfl := Option.some.inj (ho.symm.trans h.record)
    exact hu.alloc h hty ha

theorem Unset.run {C : ℕ} {ops' : List Op} {pk' : Packer} (hu : Unset ops pk) (h : Rep id P ops strs pk)
    (hrun : execAll C structs pk ops' = some pk') :
    Unset (ops ++ ops') pk' := by
  refine (execAll_invariant (I := fun ops pk => Unset ops pk ∧ ∃ strs, Rep id P ops strs pk) ops ?_
    ⟨hu, strs, h⟩ hrun).1
  rintro ops pk op pk' ⟨hu, strs, h⟩ he
  exact ⟨hu.exec h he, rep_exec h he⟩

theorem unset_open {C : ℕ} {mem : Mem ℕ} (hfit : recordSize true P + 16 ≤ C)
    (hopen : openPacker C mem id P = some pk) : Unset [] pk := by
  obtain rfl := openPacker_first hfit hopen
  intro k j o ty ho hty _ _
  cases k with
  | succ k => cases ho
  | zero =>
    obtain rfl := Option.some.inj ho
    have hwithin := (Obj.slot_within hty).2.2
    simp only [Obj.slotRegion, Obj.slot, Obj.region] at hwithin
    show Mem.load _ 0 (16 + fieldOffset true P j) (fieldWidth true ty) = _
    rw [Mem.load_store_of_disjoint _ (.inr (.inr (by simp only [le_length]; omega)))]
    exact load_part_zeros _ (by omega)

theorem Received.unset {r : Rope} (hr : Received (id, pk.rope) r) (hid : id < 2 ^ 32)
    (hf : Framed id pk.rope) (h : Rep id P ops strs pk) (hu : Unset ops pk) (ho : pk.objs[k]? = some o)
    (hty : o.fields[j]? = some ty) (hlist : ∀ s, ty ≠ .list s) (hnone : lastSet ops k j = none) :
    r.load (o.slot j) (fieldWidth o.packet ty) = List.replicate (fieldWidth o.packet ty) 0 :=
  (hr.sameAt hid hf ((h.objs_in k o ho).within (Obj.slot_within hty))).trans
    (hu k j o ty ho hty hlist hnone)

end Unset

end Netp.Genf
