import Netp.Genf.Analysis
import Netp.Lib.Run

/-! # The ids of packets

What `semanticAnalysis` makes of the packets of a program and of the programs that it uses
(`analysePackets_spec`), and when the ids that are generated tell them apart (`identified_iff`). A number
that is declared is not checked: two packets of an application can have one number, or none, a number from
1000 on can lead to a packet of another application, and an id of more than 16 bits is cut off.
-/

namespace Netp.Genf.Analysis
open Netp.Lib
set_option autoImplicit false

/-! ## What is declared -/

section Declared
variable (openUse : List UInt8 → Option Program) (P : Program)

/-- The program and the ones that it uses. -/
def programs : List Program := P :: (uses P).filterMap openUse

/-- The packets of one program, as they are before a number is given to them. -/
def ownPackets (P : Program) : List Packet :=
  (packetDefs P).map (consPacket ((findApplicationId P).getD 0))

def allPackets : List Packet := (programs openUse P).flatMap ownPackets

def allNumbers : List (Id × List UInt8) := (programs openUse P).flatMap packetIds

/-- The packet is the first of its name. -/
def Defined (p : Packet) : Prop := (allPackets openUse P).find? (fun q => q.id = p.id) = some p

/-- The last number that a packet is given, or else the one that it has. -/
def numberIn (nums : List (Id × List UInt8)) (p : Packet) : ℤ :=
  match nums.reverse.find? fun d => d.1 = p.id with
  | some d => atoi d.2
  | none => p.numID

/-- The number that is declared for a packet: zero if there is none, but one for `PacketType`. -/
def declaredNumber (p : Packet) : ℤ := numberIn (allNumbers openUse P) p

/-- When the ids tell the packets apart, in terms of the numbers that are declared. -/
structure NumbersApart : Prop where
  /-- Packets of one application have different numbers. -/
  own : ∀ p q, Defined openUse P p → Defined openUse P q → p.id ≠ q.id → p.appID = q.appID →
    declaredNumber openUse P p ≠ declaredNumber openUse P q
  /-- No number leads on into another application, to one of its numbers. -/
  other : ∀ p q, Defined openUse P p → Defined openUse P q → p.appID < q.appID →
    declaredNumber openUse P p ≠ declaredNumber openUse P q + 1000 * (q.appID - p.appID)
  /-- Every number leaves its id within 16 bits. -/
  small : ∀ p, Defined openUse P p → -1000 * p.appID ≤ declaredNumber openUse P p ∧
    declaredNumber openUse P p < 65536 - 1000 * p.appID

end Declared

/-! ## The packets -/

/-- A packet with the last number that it is given. -/
def numbered (nums : List (Id × List UInt8)) (p : Packet) : Packet := { p with numID := numberIn nums p }

/-- The map holds the first of the packets of each name, with their numbers. -/
structure Holds (ps : List Packet) (nums : List (Id × List UInt8)) (m : PacketMap) : Prop where
  find : ∀ id, m.find id = (ps.find? fun p => p.id = id).map (numbered nums)
  known : ∀ d ∈ nums, ∃ p ∈ ps, p.id = d.1

section Holds
variable {ps qs : List Packet} {nums nums' : List (Id × List UInt8)} {m m' : PacketMap}

theorem holds_empty : Holds [] [] Table.empty :=
  ⟨fun _ => Table.find_empty, fun _ hd => absurd hd List.not_mem_nil⟩

theorem numbered_of_unknown {p : Packet} (h : ∀ d ∈ nums, d.1 ≠ p.id) : numbered nums p = p := by
  have hnone : (nums.reverse.find? fun d => d.1 = p.id) = none := by
    rw [List.find?_eq_none]
    intro d hd
    simpa using h d (List.mem_reverse.1 hd)
  rw [numbered, numberIn, hnone]

theorem numbered_concat (d : Id × List UInt8) (p : Packet) :
    numbered (nums ++ [d]) p = if p.id = d.1 then { p with numID := atoi d.2 } else numbered nums p := by
  by_cases h : p.id = d.1
  · simp [numbered, numberIn, h]
  · have h' : ¬ d.1 = p.id := fun he => h he.symm
    simp [numbered, numberIn, h, h']

theorem Holds.insertAll (h : Holds ps nums m) (us : List Packet)
    (hus : ∀ id, (us.find? fun p => p.id = id) = qs.find? fun p => p.id = id) :
    Holds (ps ++ qs) nums (m.insertAll us) := by
  constructor
  · intro id
    rw [Table.find_insertAll, h.find, hus, List.find?_append]
    cases hp : ps.find? fun p => p.id = id with
    | some p => rfl
    | none =>
      cases hq : qs.find? fun p => p.id = id with
      | none => rfl
      | some q =>
        have hid : q.id = id := by simpa using List.find?_some hq
        have hnew : numbered nums q = q := by
          apply numbered_of_unknown
          intro d hd he
          obtain ⟨p, hmem, hpd⟩ := h.known d hd
          have hnot := List.find?_eq_none.1 hp p hmem
          simp [hpd, he, hid] at hnot
        simp [hnew]
  · intro d hd
    obtain ⟨p, hp, hpd⟩ := h.known d hd
    exact ⟨p, List.mem_append_left _ hp, hpd⟩

theorem Holds.packetIdRound (h : Holds ps nums m) {d : Id × List UInt8}
    (hm : packetIdRound m d = some m') : Holds ps (nums ++ [d]) m' := by
  obtain ⟨p, hp, rfl⟩ := Option.map_eq_some_iff.1 hm
  have hpid : p.id = d.1 := (Table.find_eq_some_iff.1 hp).2
  constructor
  · intro id
    have hnum : ∀ q : Packet, q.id = id → numbered (nums ++ [d]) q =
        if id = d.1 then { numbered nums q with numID := atoi d.2 } else numbered nums q := by
      rintro q rfl
      rw [numbered_concat]
      rfl
    rw [Table.find_update, h.find, hpid]
    cases hq : ps.find? fun p => p.id = id with
    | none => simp
    | some q =>
      have hid : q.id = id := by simpa using List.find?_some hq
      rw [Option.map_some, Option.map_some, Option.map_some, hnum q hid]
      by_cases hd : id = d.1 <;> simp [hd]
  · intro e he
    rcases List.mem_append.1 he with he | he
    · exact h.known e he
    · rw [List.mem_singleton.1 he]
      rw [h.find, Option.map_eq_some_iff] at hp
      obtain ⟨q, hq, -⟩ := hp
      exact ⟨q, List.mem_of_find?_eq_some hq, by simpa using List.find?_some hq⟩

theorem Holds.packetIds (h : Holds ps nums m) (hm : nums'.foldlM Analysis.packetIdRound m = some m') :
    Holds ps (nums ++ nums') m' := by
  induction nums' generalizing m nums with
  | nil =>
    rw [List.foldlM_nil, Option.pure_def, Option.some.injEq] at hm
    rw [List.append_nil, ← hm]
    exact h
  | cons d nums' ih =>
    rw [List.foldlM_cons] at hm
    obtain ⟨m₁, h₁, hm⟩ := Option.bind_eq_some_iff.1 hm
    simpa using ih (h.packetIdRound h₁) hm

variable {openUse : List UInt8 → Option Program} {P : Program}

theorem ownPackets_eq {applicationId : ℤ} (h : findApplicationId P = some applicationId) :
    ownPackets P = (packetDefs P).map (consPacket applicationId) := by
  rw [ownPackets, h, Option.getD_some]

theorem Holds.useRound (h : Holds ps nums m) {path : List UInt8}
    (hm : useRound openUse m path = some m') :
    ∃ useP, openUse path = some useP ∧
      Holds (ps ++ ownPackets useP) (nums ++ Analysis.packetIds useP) m' := by
  obtain ⟨useP, hopen, hm⟩ := Option.bind_eq_some_iff.1 hm
  obtain ⟨applicationId, happ, hm⟩ := Option.bind_eq_some_iff.1 hm
  refine ⟨useP, hopen, Holds.packetIds ?_ hm⟩
  apply h.insertAll
  intro id
  rw [ownPackets_eq happ]
  exact (Table.find_insertAll _).trans (by rw [Table.find_empty, Option.none_or])

theorem Holds.useDecls (h : Holds ps nums m) {paths : List (List UInt8)}
    (hm : paths.foldlM (Analysis.useRound openUse) m = some m') :
    Holds (ps ++ (paths.filterMap openUse).flatMap ownPackets)
      (nums ++ (paths.filterMap openUse).flatMap Analysis.packetIds) m' := by
  induction paths generalizing m ps nums with
  | nil =>
    rw [List.foldlM_nil, Option.pure_def, Option.some.injEq] at hm
    simpa [← hm] using h
  | cons path paths ih =>
    rw [List.foldlM_cons] at hm
    obtain ⟨m₁, h₁, hm⟩ := Option.bind_eq_some_iff.1 hm
    obtain ⟨useP, hopen, huse⟩ := h.useRound h₁
    simpa [List.filterMap_cons, hopen] using ih huse hm

/-- **The packets**: the first of each name in the program and the ones that it uses, with the number that
is declared for it. -/
theorem analysePackets_spec (hm : analysePackets openUse P = some m) :
    Holds (allPackets openUse P) (allNumbers openUse P) m := by
  obtain ⟨applicationId, happ, hm⟩ := Option.bind_eq_some_iff.1 hm
  obtain ⟨m₁, h₁, hm⟩ := Option.bind_eq_some_iff.1 hm
  have hown : Holds ([] ++ ownPackets P) [] (Table.empty.insertAll (ownPackets P)) :=
    holds_empty.insertAll _ fun _ => rfl
  rw [List.nil_append] at hown
  rw [← ownPackets_eq happ] at h₁
  have hmain := Holds.packetIds hown h₁
  rw [List.nil_append] at hmain
  simpa [allPackets, allNumbers, programs] using hmain.useDecls hm

end Holds

/-! ## The threads -/

/-- Every packet that a thread receives is in the map. -/
def ReceivesIn (packetMap : PacketMap) (m : ThreadMap) : Prop :=
  ∀ t ∈ m.entries, ∀ p ∈ t.recvsPktList, p ∈ packetMap.entries

section Threads
variable {packetMap : PacketMap} {m m' : ThreadMap} {messageMap : List Id}

theorem ReceivesIn.update (h : ReceivesIn packetMap m) {id : Id} {f : Thread → Thread}
    {hf : ∀ t, (f t).id = t.id}
    (hrecv : ∀ t, ∀ p ∈ (f t).recvsPktList, p ∈ t.recvsPktList ∨ p ∈ packetMap.entries) :
    ReceivesIn packetMap (m.update id f hf) := by
  intro t ht p hp
  rcases Table.mem_update ht with ht | ⟨t', ht', -, rfl⟩
  · exact h t ht p hp
  · rcases hrecv t' p hp with hp | hp
    · exact h t' ht' p hp
    · exact hp

theorem ReceivesIn.startsRound (h : ReceivesIn packetMap m) {d : Id × Id}
    (hm : startsRound m d = some m') : ReceivesIn packetMap m' := by
  obtain ⟨owner, -, hm⟩ := Option.bind_eq_some_iff.1 hm
  obtain ⟨thread, -, hm⟩ := Option.bind_eq_some_iff.1 hm
  rw [← Option.some.inj hm]
  exact h.update fun t p hp => .inl hp

theorem ReceivesIn.sendsToRound (h : ReceivesIn packetMap m) {d : Id × Id × Id}
    (hm : sendsToRound messageMap m d = some m') : ReceivesIn packetMap m' := by
  obtain ⟨sender, -, hm⟩ := Option.bind_eq_some_iff.1 hm
  obtain ⟨message, -, hm⟩ := Option.bind_eq_some_iff.1 hm
  obtain ⟨receiver, -, hm⟩ := Option.bind_eq_some_iff.1 hm
  rw [← Option.some.inj hm]
  refine ReceivesIn.update ?_ fun t p hp => .inl hp
  exact h.update fun t p hp => .inl hp

theorem ReceivesIn.sendsRound (h : ReceivesIn packetMap m) {d : Id × Id}
    (hm : sendsRound packetMap m d = some m') : ReceivesIn packetMap m' := by
  obtain ⟨sender, -, hm⟩ := Option.bind_eq_some_iff.1 hm
  obtain ⟨packet, -, hm⟩ := Option.bind_eq_some_iff.1 hm
  rw [← Option.some.inj hm]
  exact h.update fun t p hp => .inl hp

theorem ReceivesIn.receivesRound (h : ReceivesIn packetMap m) {d : Id × Id}
    (hm : receivesRound packetMap m d = some m') : ReceivesIn packetMap m' := by
  obtain ⟨receiver, -, hm⟩ := Option.bind_eq_some_iff.1 hm
  obtain ⟨packet, hpacket, hm⟩ := Option.bind_eq_some_iff.1 hm
  rw [← Option.some.inj hm]
  apply h.update
  intro t p hp
  rcases List.mem_append.1 hp with hp | hp
  · exact .inl hp
  · rw [List.mem_singleton.1 hp]
    exact .inr (Table.find_eq_some_iff.1 hpacket).1

theorem receivesIn_new (ids : List Id) :
    ReceivesIn packetMap (Table.empty.insertAll (ids.map consThread)) := by
  intro t ht p hp
  have hfind : (Table.empty.insertAll (ids.map consThread) : ThreadMap).find t.id = some t :=
    Table.find_eq_some_iff.2 ⟨ht, rfl⟩
  rw [Table.find_insertAll, Table.find_empty, Option.none_or] at hfind
  obtain ⟨id, -, rfl⟩ := List.mem_map.1 (List.mem_of_find?_eq_some hfind)
  cases hp

variable {openUse : List UInt8 → Option Program} {P : Program} {A : Maps}

theorem semanticAnalysis_spec (h : semanticAnalysis openUse P = some A) :
    analysePackets openUse P = some A.packetMap ∧ ReceivesIn A.packetMap A.threadMap := by
  obtain ⟨packetMap, hpackets, h⟩ := Option.bind_eq_some_iff.1 h
  obtain ⟨m₁, h₁, h⟩ := Option.bind_eq_some_iff.1 h
  obtain ⟨m₂, h₂, h⟩ := Option.bind_eq_some_iff.1 h
  obtain ⟨m₃, h₃, h⟩ := Option.bind_eq_some_iff.1 h
  obtain ⟨m₄, h₄, h⟩ := Option.bind_eq_some_iff.1 h
  rw [← Option.some.inj h]
  have hr₁ : ReceivesIn packetMap m₁ :=
    foldlM_invariant (fun _ _ _ hr hm => hr.startsRound hm) (receivesIn_new _) h₁
  have hr₂ := foldlM_invariant (fun _ _ _ hr hm => ReceivesIn.sendsToRound hr hm) hr₁ h₂
  have hr₃ := foldlM_invariant (fun _ _ _ hr hm => ReceivesIn.sendsRound hr hm) hr₂ h₃
  have hr₄ := foldlM_invariant (fun _ _ _ hr hm => ReceivesIn.receivesRound hr hm) hr₃ h₄
  exact ⟨hpackets, hr₄⟩

end Threads

/-! ## The ids -/

/-- The ids tell the packets apart, and what is generated finds the packet that was sent. -/
structure Identified (A : Maps) : Prop where
  different : ∀ p ∈ A.packetMap.entries, ∀ q ∈ A.packetMap.entries, p ≠ q → p.ID ≠ q.ID
  builtin : ∃ b ∈ A.packetMap.entries, b.id = packetType ∧
    ∀ p ∈ A.packetMap.entries, p.id ≠ packetType → p.ID ≠ b.ID
  untruncated : ∀ p ∈ A.packetMap.entries, (p.ID.toNat : ℤ) = p.appID * 1000 + p.numID
  /-- A thread has the packet handled if it receives it, and no other one in its place. -/
  dispatch : ∀ t ∈ A.threadMap.entries, ∀ p ∈ A.packetMap.entries,
    t.dispatchPacket p.msgId = if p ∈ t.recvsPktList then some p else none
  lower : ∀ p ∈ A.packetMap.entries, A.packetLowerName p.ID = makeLower p.id

theorem ID_toNat_iff (p : Packet) : (p.ID.toNat : ℤ) = p.appID * 1000 + p.numID ↔
    0 ≤ p.appID * 1000 + p.numID ∧ p.appID * 1000 + p.numID < 65536 := by
  rw [Packet.ID, BitVec.toNat_ofInt]
  omega

theorem msgId_inj {p q : Packet} : p.msgId = q.msgId ↔ p.ID = q.ID := by
  constructor
  · intro h
    have hn := congrArg BitVec.toNat h
    simp only [Packet.msgId, BitVec.toNat_setWidth] at hn
    have hp := p.ID.isLt
    have hq := q.ID.isLt
    apply BitVec.eq_of_toNat_eq
    omega
  · intro h
    rw [Packet.msgId, h, Packet.msgId]

theorem find?_label {α β : Type} [DecidableEq α] [DecidableEq β] {l : List α} {label : α → β} {p : α}
    (h : ∀ q ∈ l, label q = label p → q = p) :
    (l.find? fun q => label q = label p) = if p ∈ l then some p else none := by
  by_cases hp : p ∈ l
  · rw [if_pos hp]
    obtain ⟨q, hq⟩ : ∃ q, (l.find? fun q => label q = label p) = some q := by
      apply Option.isSome_iff_exists.1
      rw [List.find?_isSome]
      exact ⟨p, hp, by simp⟩
    have hlabel : label q = label p := by simpa using List.find?_some hq
    rw [hq, h q (List.mem_of_find?_eq_some hq) hlabel]
  · rw [if_neg hp, List.find?_eq_none]
    intro q hq hlabel
    have hqp := h q hq (by simpa using hlabel)
    exact hp (hqp ▸ hq)

section Ids
variable {openUse : List UInt8 → Option Program} {P : Program} {A : Maps}

theorem mem_packetMap (h : semanticAnalysis openUse P = some A) (q : Packet) :
    q ∈ A.packetMap.entries ↔
      ∃ p, Defined openUse P p ∧ numbered (allNumbers openUse P) p = q := by
  have hspec := analysePackets_spec (semanticAnalysis_spec h).1
  have hfind : q ∈ A.packetMap.entries ↔ A.packetMap.find q.id = some q := by
    rw [Table.find_eq_some_iff, and_iff_left rfl]
  rw [hfind, hspec.find, Option.map_eq_some_iff]
  constructor
  · rintro ⟨p, hp, rfl⟩
    exact ⟨p, hp, rfl⟩
  · rintro ⟨p, hp, rfl⟩
    exact ⟨p, hp, rfl⟩

theorem NumbersApart.different (hn : NumbersApart openUse P) {p q : Packet}
    (hp : Defined openUse P p) (hq : Defined openUse P q)
    (hID : p.appID * 1000 + declaredNumber openUse P p = q.appID * 1000 + declaredNumber openUse P q) :
    p = q := by
  rcases lt_trichotomy p.appID q.appID with hlt | heq | hgt
  · exact absurd (by omega) (hn.other p q hp hq hlt)
  · by_contra hne
    refine hn.own p q hp hq ?_ heq (by omega)
    intro hid
    rw [Defined, hid, hq, Option.some.injEq] at hp
    exact hne hp.symm
  · exact absurd (by omega) (hn.other q p hq hp hgt)

theorem packetType_mem (h : semanticAnalysis openUse (addDefaultDefs P) = some A) :
    ∃ b ∈ A.packetMap.entries, b.id = packetType := by
  have hspec := analysePackets_spec (semanticAnalysis_spec h).1
  have hmem : (⟨packetType, 1, 0⟩ : Packet) ∈ allPackets openUse (addDefaultDefs P) := by
    simp [allPackets, programs, ownPackets, packetDefs, addDefaultDefs, consPacket]
  obtain ⟨b, hb⟩ : ∃ b, A.packetMap.find packetType = some b := by
    apply Option.isSome_iff_exists.1
    rw [hspec.find, Option.isSome_map, List.find?_isSome]
    exact ⟨_, hmem, by simp⟩
  exact ⟨b, Table.find_eq_some_iff.1 hb⟩

theorem identified_of_apart (h : semanticAnalysis openUse (addDefaultDefs P) = some A)
    (hn : NumbersApart openUse (addDefaultDefs P)) : Identified A := by
  have hto : ∀ q ∈ A.packetMap.entries, (q.ID.toNat : ℤ) = q.appID * 1000 + q.numID := by
    intro q hq
    obtain ⟨p, hp, rfl⟩ := (mem_packetMap h q).1 hq
    have hsmall := hn.small p hp
    rw [ID_toNat_iff]
    simp only [numbered, declaredNumber] at hsmall ⊢
    omega
  have hinj : ∀ p ∈ A.packetMap.entries, ∀ q ∈ A.packetMap.entries, p.ID = q.ID → p = q := by
    intro p hp q hq hID
    have hp' := hto p hp
    rw [hID, hto q hq] at hp'
    obtain ⟨p, hpd, rfl⟩ := (mem_packetMap h p).1 hp
    obtain ⟨q, hqd, rfl⟩ := (mem_packetMap h q).1 hq
    rw [hn.different hpd hqd hp'.symm]
  refine ⟨?_, ?_, hto, ?_, ?_⟩
  · intro p hp q hq hne hID
    exact hne (hinj p hp q hq hID)
  · obtain ⟨b, hb, hid⟩ := packetType_mem h
    refine ⟨b, hb, hid, fun p hp hne hID => hne ?_⟩
    rw [hinj p hp b hb hID, hid]
  · intro t ht p hp
    apply find?_label
    intro q hq hmsg
    exact hinj q ((semanticAnalysis_spec h).2 t ht q hq) p hp (msgId_inj.1 hmsg)
  · intro p hp
    rw [Maps.packetLowerName, find?_label fun q hq hID => hinj q hq p hp hID, if_pos hp]

theorem apart_of_identified (h : semanticAnalysis openUse P = some A) (hA : Identified A) :
    NumbersApart openUse P := by
  have hmem : ∀ p, Defined openUse P p → numbered (allNumbers openUse P) p ∈ A.packetMap.entries :=
    fun p hp => (mem_packetMap h _).2 ⟨p, hp, rfl⟩
  refine ⟨?_, ?_, ?_⟩
  · intro p q hp hq hne happ hnum
    have hne' : numbered (allNumbers openUse P) p ≠ numbered (allNumbers openUse P) q := by
      intro he
      have hid := congrArg Packet.id he
      exact hne hid
    apply hA.different _ (hmem p hp) _ (hmem q hq) hne'
    simp only [declaredNumber] at hnum
    simp only [Packet.ID, numbered, happ, hnum]
  · intro p q hp hq hlt hnum
    have hne' : numbered (allNumbers openUse P) p ≠ numbered (allNumbers openUse P) q := by
      intro he
      have happ := congrArg Packet.appID he
      exact hlt.ne happ
    apply hA.different _ (hmem p hp) _ (hmem q hq) hne'
    simp only [declaredNumber] at hnum
    have hsum : p.appID * 1000 + numberIn (allNumbers openUse P) p =
        q.appID * 1000 + numberIn (allNumbers openUse P) q := by omega
    simp only [Packet.ID, numbered, hsum]
  · intro p hp
    have hID := (ID_toNat_iff _).1 (hA.untruncated _ (hmem p hp))
    simp only [numbered, declaredNumber] at hID ⊢
    omega

theorem findApplicationId_range {applicationId : ℤ} (h : findApplicationId P = some applicationId) :
    1 ≤ applicationId ∧ applicationId < 64 := by
  simp only [findApplicationId, Option.ite_none_left_eq_some, Option.some.injEq, not_or, not_lt,
    ge_iff_le, not_le, NUM_APP_ID] at h
  obtain ⟨h, rfl⟩ := h
  exact h

theorem Defined.appID_range {p : Packet} (h : Defined openUse P p) : 0 ≤ p.appID ∧ p.appID < 64 := by
  obtain ⟨Q, -, hQ⟩ := List.mem_flatMap.1 (List.mem_of_find?_eq_some h)
  obtain ⟨d, -, rfl⟩ := List.mem_map.1 hQ
  unfold consPacket
  split_ifs with hd
  · simp
  · cases happ : findApplicationId Q with
    | none => simp
    | some applicationId =>
      have hrange := findApplicationId_range happ
      simp only [Option.getD_some]
      omega

/-- Numbers of three digits, different ones within an application, are always enough. -/
theorem identified_of_lt (h : semanticAnalysis openUse (addDefaultDefs P) = some A)
    (hlt : ∀ p, Defined openUse (addDefaultDefs P) p →
      0 ≤ declaredNumber openUse (addDefaultDefs P) p ∧
        declaredNumber openUse (addDefaultDefs P) p < 1000)
    (hown : ∀ p q, Defined openUse (addDefaultDefs P) p → Defined openUse (addDefaultDefs P) q →
      p.id ≠ q.id → p.appID = q.appID →
        declaredNumber openUse (addDefaultDefs P) p ≠ declaredNumber openUse (addDefaultDefs P) q) :
    Identified A := by
  refine identified_of_apart h ⟨hown, ?_, ?_⟩
  · intro p q hp hq happ
    have hp' := hlt p hp
    have hq' := hlt q hq
    omega
  · intro p hp
    have happ := hp.appID_range
    have hp' := hlt p hp
    omega

end Ids

/-- **Ids identify packets** where the numbers that are declared are apart, and nowhere else. -/
theorem identified_iff (openUse : List UInt8 → Option Program) (P : Program) (A : Maps)
    (h : semanticAnalysis openUse (addDefaultDefs P) = some A) :
    Identified A ↔ NumbersApart openUse (addDefaultDefs P) :=
  ⟨apart_of_identified h, identified_of_apart h⟩

/-- Two packets of a broker, with the numbers that they are given. -/
def brokerWith (numbers : List Definition) : Program :=
  [.appidDecl (bytes "2"), .packetDef (bytes "Ping") 0, .packetDef (bytes "WantId") 0,
    .receivesDecl (bytes "Main") (bytes "Ping")] ++ numbers

def ping (number : ℤ) : Packet := ⟨bytes "Ping", number, 2⟩

def wantId (number : ℤ) : Packet := ⟨bytes "WantId", number, 2⟩

/-- The packets of the broker. -/
def brokerPackets (numbers : List Definition) : Option (List Packet) :=
  (semanticAnalysis (fun _ => none) (addDefaultDefs (brokerWith numbers))).map
    fun A => A.packetMap.entries

/-- The numbers of the broker's own program. -/
def brokerNumbers : List Definition :=
  [.packetId (bytes "Ping") (bytes "1"), .packetId (bytes "WantId") (bytes "2")]

theorem identified_iff_broker : ∃ A,
    semanticAnalysis (fun _ => none) (addDefaultDefs (brokerWith brokerNumbers)) = some A ∧
      Identified A := by
  have hps : brokerPackets brokerNumbers = some [⟨packetType, 1, 0⟩, ping 1, wantId 2] := by
    rfl
  obtain ⟨A, hA, -⟩ := Option.map_eq_some_iff.1 hps
  refine ⟨A, hA, (identified_iff _ _ A hA).2 ?_⟩
  have hlist : allPackets (fun _ => none) (addDefaultDefs (brokerWith brokerNumbers)) =
      [⟨packetType, 1, 0⟩, ping 0, wantId 0] := rfl
  have hall : ∀ p, Defined (fun _ => none) (addDefaultDefs (brokerWith brokerNumbers)) p →
      p = ⟨packetType, 1, 0⟩ ∨ p = ping 0 ∨ p = wantId 0 := by
    intro p hp
    simpa [hlist] using List.mem_of_find?_eq_some hp
  have hnumber : ∀ p, Defined (fun _ => none) (addDefaultDefs (brokerWith brokerNumbers)) p →
      declaredNumber (fun _ => none) (addDefaultDefs (brokerWith brokerNumbers)) p =
        if p.id = bytes "WantId" then 2 else 1 := by
    intro p hp
    rcases hall p hp with rfl | rfl | rfl <;> rfl
  refine ⟨?_, ?_, ?_⟩
  · intro p q hp hq
    rw [hnumber p hp, hnumber q hq]
    rcases hall p hp with rfl | rfl | rfl <;> rcases hall q hq with rfl | rfl | rfl <;> decide
  · intro p q hp hq
    rw [hnumber p hp, hnumber q hq]
    rcases hall p hp with rfl | rfl | rfl <;> rcases hall q hq with rfl | rfl | rfl <;> decide
  · intro p hp
    rw [hnumber p hp]
    rcases hall p hp with rfl | rfl | rfl <;> decide

/-- Without numbers both have the id 2000, and an id of 65540 is cut down to 4. -/
theorem unnumbered_alike :
    (∃ A, semanticAnalysis (fun _ => none) (addDefaultDefs (brokerWith [])) = some A ∧ ¬ Identified A) ∧
    ∃ A, semanticAnalysis (fun _ => none) (addDefaultDefs (brokerWith
      [.packetId (bytes "Ping") (bytes "1"), .packetId (bytes "WantId") (bytes "63540")])) = some A ∧
      ¬ Identified A := by
  constructor
  · have hps : brokerPackets [] = some [⟨packetType, 1, 0⟩, ping 0, wantId 0] := rfl
    obtain ⟨A, hA, hentries⟩ := Option.map_eq_some_iff.1 hps
    refine ⟨A, hA, fun h => ?_⟩
    exact h.different (ping 0) (by simp [hentries]) (wantId 0) (by simp [hentries]) (by decide) rfl
  · have hps : brokerPackets [.packetId (bytes "Ping") (bytes "1"),
        .packetId (bytes "WantId") (bytes "63540")] =
        some [⟨packetType, 1, 0⟩, ping 1, wantId 63540] := rfl
    obtain ⟨A, hA, hentries⟩ := Option.map_eq_some_iff.1 hps
    refine ⟨A, hA, fun h => ?_⟩
    have hID := h.untruncated (wantId 63540) (by simp [hentries])
    revert hID
    decide

end Netp.Genf.Analysis
