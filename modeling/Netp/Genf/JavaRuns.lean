import Netp.Genf.JavaPacket

/-! # Runs that set every string

The setters of a packet's strings, and of those of an element, run one after the other as long as the rope's
length is an `int` (`run_strings`). From these runs come the packets that are read wrong: `exists_filled` has
no element, `exists_element` has one.
-/

namespace Netp.Genf.Java
open Netp.Lib
set_option autoImplicit false

/-! ## One setter -/

theorem allocBytesBody_length (C : ℕ) (r : Rope) (nb : ℕ) :
    (allocBytesBody C r nb).1.length ≤ r.length + 4 + nb := by
  obtain ⟨blocks, mem⟩ := r
  rcases List.eq_nil_or_concat blocks with rfl | ⟨bs, t, rfl⟩
  · simp [allocBytesBody, Rope.available, Rope.append, Rope.length]
  · rw [List.concat_eq_append]
    simp only [allocBytesBody, Rope.available, Rope.append, List.getLast?_append, List.getLast?_singleton,
      Option.some_or, Option.map_some, List.dropLast_concat]
    by_cases hfit : nb ≤ t.cap - t.len
    · simp only [hfit, if_true, Rope.length, List.map_append, List.map_cons, List.map_nil, List.sum_append,
        List.sum_cons, List.sum_nil]
      omega
    · have hfit' : ¬ packetBlockHeaderSize + nb ≤ t.cap - t.len := by
        unfold packetBlockHeaderSize
        omega
      simp only [hfit, hfit', if_false, Rope.length, List.map_append, List.map_cons, List.map_nil,
        List.sum_append, List.sum_cons, List.sum_nil, packetBlockHeaderSize]
      omega

theorem allocBytes_some (C : ℕ) {nb : ℕ} {r : Rope} (h : r.length + 4 + nb < 2 ^ 31) :
    ∃ r' p offset, allocBytes C r nb = some (r', p, offset) ∧ r'.length ≤ r.length + 4 + nb := by
  have hlen := allocBytesBody_length C r nb
  exact ⟨_, _, _, if_pos (hlen.trans_lt h), hlen⟩

/-- A rope some calls later: at most `n` bytes longer, and unchanged outside of object `o`. -/
structure Grown (o : Obj) (n : ℕ) (r r' : Rope) : Prop where
  headed : Headed r'
  finds : Finds r r'
  len_le : ∀ b, r.len b ≤ r'.len b
  length : r'.length ≤ r.length + n
  kept : ∀ g : Region ℕ, g.start + g.size ≤ r.len g.blk → g.Disjoint o.region → SameAt r r' g

section Grown
variable {o : Obj} {m n : ℕ} {r r' r'' : Rope}

theorem Grown.refl (o : Obj) (h : Headed r) : Grown o 0 r r :=
  ⟨h, fun _ _ hp => hp, fun _ => le_refl _, le_refl _, fun _ _ _ => rfl⟩

theorem Grown.trans (h : Grown o m r r') (h' : Grown o n r' r'') : Grown o (m + n) r r'' := by
  refine ⟨h'.headed, fun _ _ hp => h'.finds (h.finds hp), fun b => (h.len_le b).trans (h'.len_le b), ?_, ?_⟩
  · have h1 := h.length
    have h2 := h'.length
    omega
  · intro g hg hd
    exact (h'.kept g (hg.trans (h.len_le g.blk)) hd).trans (h.kept g hg hd)

theorem Grown.inRope (h : Grown o n r r') {g : Region ℕ} (hg : InRope r g) : InRope r' g :=
  ⟨hg.1.trans (h.len_le g.blk), hg.2⟩

end Grown

section Setters
variable {k j : ℕ} {o : Obj} {s : List UInt8}

/-- The offset in `slot` leads to the string `s`. -/
def StringFrom (r : Rope) (slot : Ptr) (s : List UInt8) : Prop :=
  ∃ p, Genf.pktFind r (r.u32 slot) = some p ∧ r.load p (s.length + 1) = s ++ [0] ∧
    InRope r ⟨p.1, p.2, s.length + 1⟩

theorem exec_string (C : ℕ) (structs : ℕ → List FieldType) (pk : Packer) (ho : pk.objs[k]? = some o) (hty : o.fields[j]? = some .string) (hzero : 0 ∉ s)
    (hheaded : Headed pk.rope) (hfirst : 16 ≤ pk.rope.len 0) (hin : InRope pk.rope o.region)
    (hsmall : pk.rope.length + (5 + s.length) < 2 ^ 31) :
    ∃ r, exec C structs pk (.set k j (.string s)) = some { pk with rope := r } ∧
      Grown o (5 + s.length) pk.rope r ∧ StringFrom r (o.slot j) s := by
  obtain ⟨r, dest, offset, halloc, hlen⟩ :=
    allocBytes_some C (show pk.rope.length + 4 + (s.length + 1) < 2 ^ 31 by omega)
  have hs := allocBytes_spec hheaded halloc
  have hslot : Region.Disjoint ⟨(o.slot j).1, (o.slot j).2, 4⟩ ⟨dest.1, dest.2, s.length + 1⟩ :=
    hs.behind (hin.within (Obj.slot_within hty)).1
  have hlen' : (s ++ [0]).length = s.length + 1 := by simp
  have hun : Unchanged pk.rope ((r.store (o.slot j) (le 4 offset)).store dest (s ++ [0]))
      [⟨(o.slot j).1, (o.slot j).2, 4⟩, ⟨dest.1, dest.2, s.length + 1⟩] := by
    have h1 := unchanged_store r (o.slot j) (le 4 offset)
    have h2 := unchanged_store (r.store (o.slot j) (le 4 offset)) dest (s ++ [0])
    rw [le_length] at h1
    rw [hlen'] at h2
    exact (unchanged_of_mem hs.mem).trans (h1.trans h2)
  have hu : ((r.store (o.slot j) (le 4 offset)).store dest (s ++ [0])).u32 (o.slot j) = offset := by
    have h2 := unchanged_store (r.store (o.slot j) (le 4 offset)) dest (s ++ [0])
      ⟨(o.slot j).1, (o.slot j).2, 4⟩ (fun b hb => by
        rw [List.mem_singleton.1 hb, hlen']
        exact hslot)
    exact (congrArg ofLe h2).trans (u32_store hs.small)
  refine ⟨(r.store (o.slot j) (le 4 offset)).store dest (s ++ [0]), ?_, ?_, dest, ?_, ?_, hs.inRope hfirst⟩
  · simp [exec, ho, hty, setField, hzero, halloc]
  · refine ⟨hs.headed, hs.ext.finds, hs.ext.len_le, ?_, ?_⟩
    · have : ((r.store (o.slot j) (le 4 offset)).store dest (s ++ [0])).length = r.length := rfl
      omega
    · intro g hg hd
      apply hun g
      intro b hb
      simp only [List.mem_cons, List.not_mem_nil, or_false] at hb
      rcases hb with rfl | rfl
      · exact hd.within_right (Obj.slot_within hty)
      · exact hs.behind hg
  · rw [hu]
    exact hs.found (Nat.succ_pos _)
  · have := Mem.load_store_self (r.store (o.slot j) (le 4 offset)).mem dest.1 dest.2 (s ++ [0])
    rwa [hlen'] at this

/-! ## All strings of an object -/

/-- The calls that set every string of object `k`, to the empty one. -/
def setStrings (k : ℕ) (fields : List FieldType) : List Op :=
  fields.zipIdx.filterMap fun p => if p.1 = .string then some (.set k p.2 (.string [])) else none

theorem mem_setStrings {fields : List FieldType} {op : Op} :
    op ∈ setStrings k fields ↔ ∃ j, fields[j]? = some .string ∧ op = .set k j (.string []) := by
  unfold setStrings
  simp only [List.mem_filterMap, Option.ite_none_right_eq_some, Option.some.injEq, Prod.exists,
    List.mem_zipIdx_iff_getElem?]
  constructor
  · rintro ⟨ty, j, hty, rfl, rfl⟩
    exact ⟨j, hty, rfl⟩
  · rintro ⟨j, hty, rfl⟩
    exact ⟨_, j, hty, rfl, rfl⟩

theorem setStrings_length (k : ℕ) (packet : Bool) (fields : List FieldType) :
    4 * (setStrings k fields).length ≤ recordSize packet fields := by
  have hsum : ∀ n, 4 * ((fields.zipIdx n).filterMap fun p =>
      if p.1 = FieldType.string then some (Op.set k p.2 (.string [])) else none).length ≤
        (fields.map (fieldWidth packet)).sum := by
    induction fields with
    | nil => simp
    | cons ty fields ih =>
      intro n
      have := ih (n + 1)
      rw [List.zipIdx_cons, List.filterMap_cons, List.map_cons, List.sum_cons]
      by_cases hty : ty = .string
      · subst hty
        simp only [if_true, List.length_cons]
        have hw : fieldWidth packet .string = 4 := rfl
        omega
      · simp only [if_neg hty]
        omega
  have h0 := hsum 0
  unfold recordSize fieldOffset
  rw [List.take_length]
  unfold setStrings
  omega

theorem run_strings (C : ℕ) (structs : ℕ → List FieldType) (pk : Packer) {ops : List Op} (hops : ∀ op ∈ ops, ∃ j, o.fields[j]? = some .string ∧
      op = .set k j (.string [])) (ho : pk.objs[k]? = some o) (hheaded : Headed pk.rope)
    (hfirst : 16 ≤ pk.rope.len 0) (hin : InRope pk.rope o.region)
    (hsmall : pk.rope.length + 5 * ops.length < 2 ^ 31) :
    ∃ r, execAll C structs pk ops = some { pk with rope := r } ∧ Grown o (5 * ops.length) pk.rope r := by
  induction ops generalizing pk with
  | nil => exact ⟨pk.rope, rfl, .refl o hheaded⟩
  | cons op ops ih =>
    obtain ⟨j, hty, rfl⟩ := hops op List.mem_cons_self
    rw [List.length_cons] at hsmall
    have hzero : (0 : UInt8) ∉ ([] : List UInt8) := List.not_mem_nil
    obtain ⟨r, hr, hgrown, -⟩ := exec_string C structs pk ho hty hzero hheaded hfirst hin
      (by simp only [List.length_nil]; omega)
    have hlength : r.length + 5 * ops.length < 2 ^ 31 := by
      have := hgrown.length
      simp only [List.length_nil] at this
      omega
    obtain ⟨r', hr', hgrown'⟩ := ih { pk with rope := r }
      (fun op hop => hops op (List.mem_cons_of_mem _ hop)) ho hgrown.headed
      (hfirst.trans (hgrown.len_le 0)) (hgrown.inRope hin) hlength
    refine ⟨r', ?_, ?_⟩
    · rw [execAll, hr, Option.bind_some, hr']
    · have htotal : 5 * (ops.length + 1) = 5 + ([] : List UInt8).length + 5 * ops.length := by
        simp only [List.length_nil]
        omega
      rw [List.length_cons, htotal]
      exact hgrown.trans hgrown'

/-- `alloc_x`: the list field leads somewhere, if it is not where `tail_x` points to. -/
theorem exec_alloc (C : ℕ) (structs : ℕ → List FieldType) (pk : Packer) {st : ℕ} (ho : pk.objs[0]? = some o) (hty : o.fields[j]? = some (.list st))
    (hpacket : o.packet = true) (hheaded : Headed pk.rope) (hfirst : 16 ≤ pk.rope.len 0)
    (hin : InRope pk.rope o.region)
    (hsmall : pk.rope.length + (4 + recordSize false (structs st)) < 2 ^ 31) :
    ∃ r elov, exec C structs pk (.alloc j) =
        some ⟨r, pk.objs ++ [⟨false, j, elov, structs st⟩], Function.update pk.tail j elov⟩ ∧
      Headed r ∧ Finds pk.rope r ∧ (∀ b, pk.rope.len b ≤ r.len b) ∧
      r.length ≤ pk.rope.length + (4 + recordSize false (structs st)) ∧
      InRope r (Obj.region ⟨false, j, elov, structs st⟩) ∧ ((pk.tail j).1 ≠ (o.slot j).1 → r.u32 (o.slot j) ≠ 0) ∧
      ∀ g : Region ℕ, g.start + g.size ≤ pk.rope.len g.blk →
        g.Disjoint (Obj.region ⟨false, j, elov, structs st⟩) := by
  obtain ⟨r, elov, offset, halloc, hlen⟩ :=
    allocBytes_some C (show pk.rope.length + 4 + recordSize false (structs st) < 2 ^ 31 by omega)
  have hs := allocBytes_spec hheaded halloc
  have hslot : (o.slot j).2 + 4 ≤ pk.rope.len (o.slot j).1 := by
    have := (hin.within (Obj.slot_within hty)).1
    simp only [Obj.slotRegion, hpacket] at this
    exact this
  -- the list field is as it was when the element is linked
  have hfield : (r.store elov (List.replicate (recordSize false (structs st)) 0)).u32 (o.slot j) =
      pk.rope.u32 (o.slot j) := by
    have h1 := (unchanged_of_mem hs.mem).trans
      (unchanged_store r elov (List.replicate (recordSize false (structs st)) 0))
    refine congrArg ofLe (h1 ⟨(o.slot j).1, (o.slot j).2, 4⟩ fun b hb => ?_)
    rw [List.nil_append] at hb
    rw [List.mem_singleton.1 hb, List.length_replicate]
    exact hs.behind hslot
  have hcond : ofLe ((r.store elov (List.replicate (recordSize false (structs st)) 0)).load (o.slot j) 4) =
      pk.rope.u32 (o.slot j) := hfield
  have hexec : exec C structs pk (.alloc j) = some ⟨if pk.rope.u32 (o.slot j) = 0 then
        (r.store elov (List.replicate (recordSize false (structs st)) 0)).store (o.slot j) (le 4 offset)
      else (r.store elov (List.replicate (recordSize false (structs st)) 0)).store (pk.tail j) (le 4 offset),
      pk.objs ++ [⟨false, j, elov, structs st⟩], Function.update pk.tail j elov⟩ := by
    simp only [exec, ho, Option.bind_some, hty, allocElement, halloc, Option.bind_eq_bind, hcond]
  have hfresh : ∀ g : Region ℕ, g.start + g.size ≤ pk.rope.len g.blk →
      g.Disjoint (Obj.region ⟨false, j, elov, structs st⟩) := fun g hg => hs.behind hg
  by_cases h0 : pk.rope.u32 (o.slot j) = 0
  · rw [if_pos h0] at hexec
    refine ⟨_, elov, hexec, hs.headed, hs.ext.finds, hs.ext.len_le, hlen.trans (by omega), hs.inRope hfirst, ?_,
      hfresh⟩
    intro _
    rw [u32_store hs.small]
    exact Nat.ne_of_gt hs.pos
  · rw [if_neg h0] at hexec
    refine ⟨_, elov, hexec, hs.headed, hs.ext.finds, hs.ext.len_le, hlen.trans (by omega), hs.inRope hfirst, ?_,
      hfresh⟩
    intro htail
    have h2 := unchanged_store (r.store elov (List.replicate (recordSize false (structs st)) 0)) (pk.tail j)
      (le 4 offset) ⟨(o.slot j).1, (o.slot j).2, 4⟩ (fun b hb => by
        rw [List.mem_singleton.1 hb]
        exact .inl (Ne.symm htail))
    have hkept := (congrArg ofLe h2).trans hfield
    exact fun h => h0 (hkept.symm.trans h)

end Setters

/-! ## Packets with every string set -/

theorem execAll_append {C : ℕ} {structs : ℕ → List FieldType} {pk pk' : Packer} {ops ops' : List Op}
    (h : execAll C structs pk ops = some pk') :
    execAll C structs pk (ops ++ ops') = execAll C structs pk' ops' := by
  induction ops generalizing pk with
  | nil =>
    simp only [execAll, Option.some.injEq] at h
    subst h
    rfl
  | cons op ops ih =>
    simp only [execAll, Option.bind_eq_some_iff] at h
    obtain ⟨pk1, h1, h2⟩ := h
    rw [List.cons_append, execAll, h1, Option.bind_some, ih h2]

theorem lastSet_isSome {ops : List Op} {k j : ℕ} {v : Value} (h : .set k j v ∈ ops) :
    (lastSet ops k j).isSome := by
  unfold lastSet
  rw [List.findSome?_isSome_iff]
  exact ⟨_, List.mem_reverse.2 h, by simp⟩

section Bases
variable {C : ℕ} {S : Schema} {P : List RecordFieldType} {ops : List Op} {pk : Packer}

theorem Packs.set (h : Packs C S P ops pk) {k j : ℕ} {v : Value} {r : Rope}
    (hexec : exec C (packStructs S) pk (.set k j v) = some { pk with rope := r }) :
    Packs C S P (ops ++ [.set k j v]) { pk with rope := r } := by
  obtain ⟨id, mem, pk0, hopen, hrun⟩ := h.run
  refine ⟨⟨id, mem, pk0, hopen, ?_⟩, ?_⟩
  · rw [execAll_append hrun, execAll, hexec]
    rfl
  · intro k' j' o ho hty
    rw [lastSet_set]
    split
    · rfl
    · exact h.strings k' j' o ho hty

/-- The packet at this address. -/
abbrev packetAt (p : Ptr) (P : List RecordFieldType) : Obj := ⟨true, 0, p, fieldTypes P⟩

/-- A rope with the record of the packet at `p`. If it is not behind the headers it begins the second block, and
`read` takes the head of that block for it. -/
structure Base (C : ℕ) (P : List RecordFieldType) (p : Ptr) (r : Rope) : Prop where
  headed : Headed r
  first : 16 ≤ r.len 0
  placed : InRope r (packetAt p P).region
  length : r.length ≤ 2 ^ 30
  second : C < recordSize true (fieldTypes P) + 16 → p = (1, 4) ∧ Genf.pktFind r 16 = some (1, 0)

theorem Base.grown {p : Ptr} {o : Obj} {n : ℕ} {r r' : Rope} (h : Base C P p r) (hg : Grown o n r r')
    (hlen : r'.length ≤ 2 ^ 30) : Base C P p r' :=
  ⟨hg.headed, h.first.trans (hg.len_le 0), hg.inRope h.placed, hlen, fun hfit => ⟨(h.second hfit).1, hg.finds (h.second hfit).2⟩⟩

theorem open_first (hfit : recordSize true (fieldTypes P) + 16 ≤ C)
    (hsize : recordSize true (fieldTypes P) ≤ 2 ^ 28) (mem : Mem ℕ) :
    ∃ r, openPacker C mem 0 (fieldTypes P) = some ⟨r, [packetAt (0, 16) P], fun _ => (0, 0)⟩ ∧
      r.blocks = [⟨C, 16 + recordSize true (fieldTypes P)⟩] := by
  unfold openPacker
  rw [packetBaseOpen_first hfit, if_pos (by omega)]
  exact ⟨_, rfl, rfl⟩

theorem open_base (hC : 16 ≤ C) (hsize : recordSize true (fieldTypes P) ≤ 2 ^ 28) (mem : Mem ℕ) :
    ∃ r p, openPacker C mem 0 (fieldTypes P) = some ⟨r, [packetAt p P], fun _ => (0, 0)⟩ ∧
      Base C P p r ∧ r.length ≤ 20 + recordSize true (fieldTypes P) := by
  by_cases hfit : recordSize true (fieldTypes P) + 16 ≤ C
  · obtain ⟨r, hopen, hblocks⟩ := open_first hfit hsize mem
    have hlen : r.len 0 = 16 + recordSize true (fieldTypes P) := by
      unfold Rope.len
      rw [hblocks]
      rfl
    have htotal : r.length = 16 + recordSize true (fieldTypes P) := by
      unfold Rope.length
      rw [hblocks]
      simp
    refine ⟨r, (0, 16), hopen, ⟨?_, by omega, ?_, by omega, fun h => absurd hfit (Nat.not_le.2 h)⟩, by omega⟩
    · intro t ht
      rw [hblocks] at ht
      rw [List.mem_singleton.1 ht]
      show 4 ≤ 16 + recordSize true (fieldTypes P)
      omega
    · exact ⟨le_of_eq hlen.symm, Nat.le_add_left 4 12, fun _ => le_refl 16⟩
  · obtain ⟨mem', hopen⟩ := open_second (P := fieldTypes P) hC (by omega) (by omega) mem
    refine ⟨_, _, hopen, ⟨?_, le_refl 16, ?_, ?_, fun _ => ⟨rfl, ?_⟩⟩, ?_⟩
    · intro t ht
      simp only [List.mem_cons, List.not_mem_nil, or_false] at ht
      rcases ht with rfl | rfl
      · show 4 ≤ 16
        omega
      · exact Nat.le_add_right _ _
    · exact ⟨le_refl _, le_refl 4, fun h => by cases h⟩
    · simp only [Rope.length, List.map_cons, List.map_nil, List.sum_cons, List.sum_nil]
      omega
    · refine SecondBlock.pktFind ⟨rfl, by simp, ?_⟩
      show 0 < 4 + recordSize true (fieldTypes P)
      omega
    · simp only [Rope.length, List.map_cons, List.map_nil, List.sum_cons, List.sum_nil]
      omega

theorem exists_filled (hC : 16 ≤ C) (S : Schema) (hsize : recordSize true (fieldTypes P) ≤ 2 ^ 28) :
    ∃ r p, Packs C S P (setStrings 0 (fieldTypes P)) ⟨r, [packetAt p P], fun _ => (0, 0)⟩ ∧ Base C P p r := by
  obtain ⟨r, p, hopen, hbase, hlen⟩ := open_base (P := P) hC hsize fun _ _ => 0
  have hcount := setStrings_length 0 true (fieldTypes P)
  obtain ⟨r', hrun, hgrown⟩ := run_strings C (packStructs S)
    ⟨r, [packetAt p P], fun _ => (0, 0)⟩ (o := packetAt p P) (fun op hop => mem_setStrings.1 hop) rfl hbase.headed hbase.first hbase.placed
    (show r.length + 5 * (setStrings 0 (fieldTypes P)).length < 2 ^ 31 by omega)
  refine ⟨r', p, ⟨⟨0, _, _, hopen, hrun⟩, ?_⟩, hbase.grown hgrown ?_⟩
  · intro k j o ho hty
    cases k with
    | zero =>
      obtain rfl := Option.some.inj ho
      exact lastSet_isSome (mem_setStrings.2 ⟨j, hty, rfl⟩)
    | succ k => cases ho
  · have : r'.length ≤ r.length + 5 * (setStrings 0 (fieldTypes P)).length := hgrown.length
    omega

theorem exists_element (hC : 16 ≤ C) (hsize : recordSize true (fieldTypes P) ≤ 2 ^ 28) {j s : ℕ}
    (hj : P[j]? = some (.list s)) (hsize' : recordSize false (packStructs S s) ≤ 2 ^ 28) :
    ∃ r p elov tail, Packs C S P
        (setStrings 0 (fieldTypes P) ++ .alloc j :: setStrings 1 (packStructs S s))
        ⟨r, [packetAt p P, ⟨false, j, elov, packStructs S s⟩], tail⟩ ∧
      InRope r (packetAt p P).region ∧ (C < recordSize true (fieldTypes P) + 16 → p = (1, 4) ∧ Genf.pktFind r 16 = some (1, 0) ∧
        r.u32 ((packetAt p P).slot j) ≠ 0) := by
  obtain ⟨r, p, hpacks, hbase⟩ := exists_filled (P := P) hC S hsize
  obtain ⟨id, mem, pk0, hopen, hrun⟩ := hpacks.run
  have hfj : (fieldTypes P)[j]? = some (.list s) := by
    rw [fieldTypes_getElem?, hj]
    rfl
  have hlen := hbase.length
  have hcount := setStrings_length 1 false (packStructs S s)
  obtain ⟨r1, elov, halloc, hheaded, hfinds, hlenle, hlen1, hplaced, hhead, hfresh⟩ :=
    exec_alloc C (packStructs S) ⟨r, [packetAt p P], fun _ => (0, 0)⟩ (o := packetAt p P) rfl hfj rfl hbase.headed hbase.first hbase.placed (by show r.length + _ < _; omega)
  have hlen1 : r1.length ≤ r.length + (4 + recordSize false (packStructs S s)) := hlen1
  obtain ⟨r2, hrun2, hgrown⟩ := run_strings C (packStructs S)
    ⟨r1, [packetAt p P, ⟨false, j, elov, packStructs S s⟩], Function.update (fun _ => (0, 0)) j elov⟩ (o := ⟨false, j, elov, packStructs S s⟩) (k := 1)
    (fun op hop => mem_setStrings.1 hop) rfl hheaded (hbase.first.trans (hlenle 0)) hplaced
    (show r1.length + 5 * (setStrings 1 (packStructs S s)).length < 2 ^ 31 by omega)
  refine ⟨r2, p, elov, Function.update (fun _ => (0, 0)) j elov, ⟨⟨id, mem, pk0, hopen, ?_⟩, ?_⟩, ?_, ?_⟩
  · rw [execAll_append hrun, execAll, halloc, Option.bind_some]
    exact hrun2
  · intro k i o ho hty
    cases k with
    | zero =>
      obtain rfl := Option.some.inj ho
      exact lastSet_isSome (List.mem_append_left _ (mem_setStrings.2 ⟨i, hty, rfl⟩))
    | succ k =>
      cases k with
      | zero =>
        obtain rfl := Option.some.inj ho
        exact lastSet_isSome
          (List.mem_append_right _ (List.mem_cons_of_mem _ (mem_setStrings.2 ⟨i, hty, rfl⟩)))
      | succ k => cases ho
  · exact hgrown.inRope ⟨hbase.placed.1.trans (hlenle _), hbase.placed.2⟩
  · intro hfit
    obtain ⟨rfl, hfind⟩ := hbase.second hfit
    refine ⟨rfl, hgrown.finds (hfinds hfind), ?_⟩
    have hslot := (hbase.placed.within (Obj.slot_within hfj)).1
    have hkept := hgrown.kept ⟨((packetAt (1, 4) P).slot j).1, ((packetAt (1, 4) P).slot j).2, 4⟩
      (hslot.trans (hlenle _)) (hfresh _ hslot)
    have hne := hhead Nat.zero_ne_one
    intro h0
    exact hne ((congrArg ofLe hkept).symm.trans h0)

end Bases

end Netp.Genf.Java
