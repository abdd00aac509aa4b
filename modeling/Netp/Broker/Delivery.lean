import Netp.Broker.Inv

/-! # What clients of the broker get

`broker_forwards` is about packets as they arrive and about the whole sequence of packets of one id.
`retained_iff` compares what a `WantId` is sent with the number of packets that `SetRetain` asked for:
since `dispatchPacket` does not route `SetRetain` to its handler, the answer is the last packet alone, and
a `SetRetain` packet is itself kept and sent as an ordinary packet.
-/

namespace Netp.Broker
open Netp.Lib
set_option autoImplicit false

/-! ## Forwarding -/

/-- A `WantId` for the id has been processed on the connection. -/
def askedFor (rs : List Received) (c : ConnId) (id : UInt32) : Prop :=
  ∃ e ∈ rs, e.src = c ∧ e.packet = .wantId (toLong id)

theorem wanted_iff (rs : List Received) (c : ConnId) (id : UInt32) :
    (expected c id rs).wanted = true ↔ askedFor rs c id := by
  induction rs using List.reverseRecOn with
  | nil => simp [expected, askedFor]
  | append_singleton rs e ih =>
    have hsplit : askedFor (rs ++ [e]) c id ↔
        askedFor rs c id ∨ e.src = c ∧ e.packet = .wantId (toLong id) := by
      simp only [askedFor, List.mem_append, List.mem_singleton]
      constructor
      · rintro ⟨e', he' | rfl, h⟩
        · exact Or.inl ⟨e', he', h⟩
        · exact Or.inr h
      · rintro (⟨e', he', h⟩ | h)
        · exact ⟨e', Or.inl he', h⟩
        · exact ⟨e, Or.inr rfl, h⟩
    rw [expected_snoc, hsplit, ← ih]
    obtain ⟨src, p, isOpen⟩ := e
    cases p with
    | ping => simp [Sub.see]
    | packetType f => simp [Sub.see]
    | wantId w =>
      rw [see_wantId]
      by_cases h : src = c ∧ w = toLong id
      · rw [if_pos h]
        simp [h.1, h.2]
      · rw [if_neg h]
        simp only [Packet.wantId.injEq]
        tauto
    | setRetain i n =>
      rw [see_resent rfl]
      split <;> simp
    | other msgId hid bytes =>
      simp only [Sub.see]
      split <;> simp

section Forward
variable {s : MainThread}

/-- A packet that is resent, on arrival: it is handed once to exactly the connections that are open and
have asked for its id. -/
theorem resend_handed (h : Inv s) {c : ConnId} (ho : (s.conn c).isOpen = true) {p : Packet}
    (hp : p.isResent = true) (fails : ConnId → Bool) :
    ∃ s', step s (.packet c p fails) = some s' ∧ ∀ d,
      ((s.conn d).isOpen = true ∧ askedFor s.received d p.msgId →
        (s'.conn d).handed = (s.conn d).handed ++ [p]) ∧
      (¬ ((s.conn d).isOpen = true ∧ askedFor s.received d p.msgId) →
        (s'.conn d).handed = (s.conn d).handed) := by
  obtain ⟨ks, hks, -⟩ := h.lasts
  have hroute : step s (.packet c p fails) = (s.record c p).resendPacket p fails := by
    simp only [step, ho, if_true, dispatch_resent hp]
  refine ⟨_, hroute.trans (resendPacket_eq h p fails hks), ?_⟩
  intro d
  have hcond : ((s.conn d).isOpen && (expected d p.msgId s.received).wanted) = true ↔
      (s.conn d).isOpen = true ∧ askedFor s.received d p.msgId := by
    rw [Bool.and_eq_true, wanted_iff]
  constructor
  · intro hd
    show (afterResend s p fails d).handed = _
    rw [afterResend, if_pos (hcond.mpr hd)]
    rfl
  · intro hd
    show (afterResend s p fails d).handed = _
    rw [afterResend, if_neg (fun e => hd (hcond.mp e))]

/-- Forwarding in every run. A packet that is resent goes once to each open connection that asked for its
id and to no other; the packets of an id that a connection is handed are, for each of its `WantId` the
packet kept at that time, and each packet that arrives while the connection is open after the first;
`Ping`, `WantId` and `PacketType` packets are never handed on. -/
theorem broker_forwards (h : Reach broker s) :
    (∀ c p fails, (s.conn c).isOpen = true → p.isResent = true →
      ∃ s', step s (.packet c p fails) = some s' ∧ ∀ d,
        ((s.conn d).isOpen = true ∧ askedFor s.received d p.msgId →
          (s'.conn d).handed = (s.conn d).handed ++ [p]) ∧
        (¬ ((s.conn d).isOpen = true ∧ askedFor s.received d p.msgId) →
          (s'.conn d).handed = (s.conn d).handed)) ∧
      (∀ c id, (s.conn c).handed.filter (fun p => p.msgId = id) =
        (expected c id s.received).out) ∧
      ∀ c, ∀ p ∈ (s.conn c).handed,
        p.msgId ≠ idPing ∧ p.msgId ≠ idWantId ∧ p.msgId ≠ idPacketType := by
  have hinv := reach_inv h
  refine ⟨fun c p fails ho hp => resend_handed hinv ho hp fails, hinv.handed, ?_⟩
  intro c p hp
  have hres := hinv.resent c p hp
  simpa [Packet.isResent, and_assoc] using hres

end Forward

/-- A packet with the id 7. -/
def packet7 : Packet := .other 7 (by decide) [0x61]

/-- One connection asks for id 7, a packet with that id arrives, and the connection asks again. -/
def askTwice : List Act :=
  [.accept, .establish 0, .packet 0 (.wantId 7) (fun _ => false), .packet 0 packet7 (fun _ => false),
    .packet 0 (.wantId 7) (fun _ => false)]

theorem broker_forwards_twice :
    ∃ s, Reach broker s ∧ (s.conn 0).handed = [packet7, packet7] ∧
      (s.conn 0).handed.filter (fun p => p.msgId = 7) = (expected 0 7 s.received).out := by
  have hrun : ∃ s, run broker initBroker askTwice = some s ∧
      (s.conn 0).handed = [packet7, packet7] := ⟨_, rfl, rfl⟩
  obtain ⟨s, hs, hh⟩ := hrun
  have hreach : Reach broker s := Reach.run .init hs
  exact ⟨s, hreach, hh, (broker_forwards hreach).2.1 0 7⟩

/-- The packets kept are handed out on the first `WantId` only. -/
def Sub.seeOnce (c : ConnId) (id : UInt32) (a : Sub) (e : Received) : Sub :=
  if a.wanted && decide (e.packet = .wantId (toLong id)) then a else a.see c id e

/-- The second `WantId` is answered with the packet that the connection has already been handed. -/
theorem broker_repeats :
    ∃ s, Reach broker s ∧ (s.conn 0).handed.filter (fun p => p.msgId = 7) ≠
      (s.received.foldl (Sub.seeOnce 0 7) ⟨false, none, []⟩).out := by
  have hrun : ∃ s, run broker initBroker askTwice = some s ∧
      (s.conn 0).handed.filter (fun p => p.msgId = 7) = [packet7, packet7] ∧
      (s.received.foldl (Sub.seeOnce 0 7) ⟨false, none, []⟩).out = [packet7] := ⟨_, rfl, rfl, rfl⟩
  obtain ⟨s, hs, h1, h2⟩ := hrun
  refine ⟨s, Reach.run .init hs, ?_⟩
  rw [h1, h2]
  intro e
  cases e

/-! ## Retained packets -/

/-- The packets published with an id, oldest first. -/
def published (rs : List Received) (id : ℤ) : List Packet :=
  (rs.map Received.packet).filter fun p =>
    match p with
    | .other msgId _ _ => toLong msgId = id
    | _ => false

/-- The number of packets to retain of an id: what the last `SetRetain` for it says, or one. -/
def retainOf (rs : List Received) (id : ℤ) : ℤ :=
  rs.foldl (fun r e =>
    match e.packet with
    | .setRetain i n => if i = id then n else r
    | _ => r) 1

/-- The last `n` of a list. -/
def lastN (n : ℕ) (l : List Packet) : List Packet := l.drop (l.length - n)

/-- A `SetRetain` packet has been received. -/
def hasSetRetain (rs : List Received) : Prop := ∃ e ∈ rs, ∃ i n, e.packet = .setRetain i n

/-- The packets with an id that went to `resendPacket`. -/
def resentOf (rs : List Received) (id : ℤ) : List Packet :=
  (rs.map Received.packet).filter fun p => p.isResent && decide (toLong p.msgId = id)

theorem last_eq (rs : List Received) (c : ConnId) (id : UInt32) :
    (expected c id rs).last = (resentOf rs (toLong id)).getLast? := by
  induction rs using List.reverseRecOn with
  | nil => rfl
  | append_singleton rs e ih =>
    rw [expected_snoc]
    obtain ⟨src, p, isOpen⟩ := e
    have hsplit : resentOf (rs ++ [⟨src, p, isOpen⟩]) (toLong id) =
        resentOf rs (toLong id) ++
          if (p.isResent && decide (toLong p.msgId = toLong id)) = true then [p] else [] := by
      simp only [resentOf, List.map_append, List.map_cons, List.map_nil, List.filter_append,
        List.filter_cons, List.filter_nil]
    rw [hsplit]
    by_cases hp : p.isResent = true
    · rw [see_resent hp]
      by_cases hid : p.msgId = id
      · simp [hid, hp]
      · have hid' : ¬ toLong p.msgId = toLong id := fun e => hid (toLong_inj e)
        simp [hid, hid', ih]
    · have hsee : ((expected c id rs).see c id ⟨src, p, isOpen⟩).last = (expected c id rs).last := by
        cases p with
        | ping => rfl
        | packetType f => rfl
        | wantId w =>
          rw [see_wantId]
          split <;> rfl
        | setRetain i n => exact absurd rfl hp
        | other msgId hid bytes => exact absurd (other_isResent msgId hid bytes) hp
      simp [hp, hsee, ih]

/-- What a `WantId` is sent: the packet with its id that was resent last. -/
theorem wantId_handed {s : MainThread} (h : Inv s) {c : ConnId} (ho : (s.conn c).isOpen = true)
    (id : ℤ) (fails : ConnId → Bool) :
    ∃ s', step s (.packet c (.wantId id) fails) = some s' ∧
      (s'.conn c).handed = (s.conn c).handed ++ (resentOf s.received id).getLast?.toList := by
  obtain ⟨ks, hks, hnodup, hkres, hkept⟩ := h.lasts
  have hroute : step s (.packet c (.wantId id) fails) =
      (s.record c (.wantId id)).recvWantId c id fails := by
    simp only [step, ho, if_true]
    rfl
  have hlast : (ks.find? fun p => toLong p.msgId = id) = (resentOf s.received id).getLast? := by
    by_cases hid : ∃ u : UInt32, toLong u = id
    · obtain ⟨u, rfl⟩ := hid
      rw [find_toLong, hkept c u, last_eq]
    · have hnone : ∀ p : Packet, ¬ toLong p.msgId = id := fun p e => hid ⟨_, e⟩
      simp [resentOf, hnone]
  refine ⟨_, hroute.trans (recvWantId_eq ho id fails hks hnodup), ?_⟩
  rw [hlast]
  show (Function.update s.conn c _ c).handed = _
  rw [Function.update_self]
  cases (resentOf s.received id).getLast? with
  | none => simp [afterWantId]
  | some p => rfl

theorem lastN_one (l : List Packet) : lastN 1 l = l.getLast?.toList := by
  induction l using List.reverseRecOn with
  | nil => rfl
  | append_singleton l p ih => simp [lastN]

/-- Two last parts of a list are the same when they are equally long. -/
theorem lastN_eq_iff (m n : ℕ) (l : List Packet) :
    lastN m l = lastN n l ↔ min m l.length = min n l.length := by
  constructor
  · intro h
    have hlen := congrArg List.length h
    simp only [lastN, List.length_drop] at hlen
    omega
  · intro h
    unfold lastN
    congr 1
    omega

/-- Only `SetRetain` packets are resent and not published, with their own id. -/
theorem resentOf_eq (rs : List Received) {id : ℤ} (hid : id ≠ toLong idSetRetain) :
    resentOf rs id = published rs id := by
  unfold resentOf published
  apply List.filter_congr
  intro p _
  cases p with
  | ping => rfl
  | wantId w => rfl
  | packetType f => rfl
  | setRetain i n =>
    have hne : ¬ toLong idSetRetain = id := fun e => hid e.symm
    simp [Packet.msgId, hne]
  | other msgId h bytes =>
    rw [other_isResent, Bool.true_and]
    rfl

theorem published_setRetain (rs : List Received) : published rs (toLong idSetRetain) = [] := by
  unfold published
  rw [List.filter_eq_nil_iff]
  intro p _
  cases p with
  | other msgId h bytes =>
    have hne : ¬ toLong msgId = toLong idSetRetain := by
      intro e
      apply h
      rw [toLong_inj e]
      simp [receives]
    simp [hne]
  | _ => simp

theorem resentOf_setRetain (rs : List Received) :
    resentOf rs (toLong idSetRetain) = [] ↔ ¬ hasSetRetain rs := by
  unfold resentOf hasSetRetain
  rw [List.filter_eq_nil_iff]
  simp only [List.mem_map, forall_exists_index, and_imp, forall_apply_eq_imp_iff₂]
  constructor
  · rintro h ⟨e, he, i, n, hp⟩
    have := h e he
    rw [hp] at this
    exact this rfl
  · intro h e he hres
    simp only [Bool.and_eq_true, decide_eq_true_eq] at hres
    obtain ⟨-, hid⟩ := hres
    cases hp : e.packet with
    | setRetain i n => exact h ⟨e, he, i, n, hp⟩
    | other msgId hm bytes =>
      rw [hp] at hid
      apply hm
      have : msgId = idSetRetain := toLong_inj hid
      rw [this]
      simp [receives]
    | ping =>
      rw [hp] at hid
      have : idPing = idSetRetain := toLong_inj hid
      exact absurd this (by decide)
    | wantId w =>
      rw [hp] at hid
      have : idWantId = idSetRetain := toLong_inj hid
      exact absurd this (by decide)
    | packetType f =>
      rw [hp] at hid
      have : idPacketType = idSetRetain := toLong_inj hid
      exact absurd this (by decide)

/-- When a `WantId` is answered with as many of the packets published with its id as `SetRetain` has asked
for: when that number and the default of one give the same, and the id is not that of `SetRetain` itself
after such a packet has come. -/
theorem retained_iff {s : MainThread} (h : Reach broker s) {c : ConnId}
    (ho : (s.conn c).isOpen = true) (id : ℤ) (fails : ConnId → Bool) :
    (∃ s', step s (.packet c (.wantId id) fails) = some s' ∧
        (s'.conn c).handed = (s.conn c).handed ++
          lastN (retainOf s.received id).toNat (published s.received id)) ↔
      min (retainOf s.received id).toNat (published s.received id).length =
          min 1 (published s.received id).length ∧
        (id = toLong idSetRetain → ¬ hasSetRetain s.received) := by
  obtain ⟨s', hs', hh⟩ := wantId_handed (reach_inv h) ho id fails
  have hsent : (∃ s', step s (.packet c (.wantId id) fails) = some s' ∧
        (s'.conn c).handed = (s.conn c).handed ++
          lastN (retainOf s.received id).toNat (published s.received id)) ↔
      (resentOf s.received id).getLast?.toList =
        lastN (retainOf s.received id).toNat (published s.received id) := by
    constructor
    · rintro ⟨s'', hs'', hh''⟩
      rw [hs'] at hs''
      cases hs''
      exact List.append_cancel_left (hh.symm.trans hh'')
    · intro e
      exact ⟨s', hs', e ▸ hh⟩
  rw [hsent]
  by_cases hid : id = toLong idSetRetain
  · subst hid
    rw [published_setRetain]
    have hnone : (resentOf s.received (toLong idSetRetain)).getLast?.toList = [] ↔
        ¬ hasSetRetain s.received := by
      rw [← resentOf_setRetain]
      simp
    simpa [lastN] using hnone
  · rw [resentOf_eq _ hid, ← lastN_one, lastN_eq_iff]
    constructor
    · intro e
      exact ⟨e.symm, fun e' => absurd e' hid⟩
    · intro e
      exact e.1.symm

/-- `SetRetain` asks for two packets of id 7, and two are published. -/
def retainTwo : List Act :=
  [.accept, .establish 0, .packet 0 (.setRetain 7 2) (fun _ => false),
    .packet 0 packet7 (fun _ => false), .packet 0 packet7 (fun _ => false)]

/-- One of the two packets is sent. -/
theorem retained_fails :
    ∃ s, Reach broker s ∧ (s.conn 0).isOpen = true ∧
      ¬ ∃ s', step s (.packet 0 (.wantId 7) fun _ => false) = some s' ∧
        (s'.conn 0).handed = (s.conn 0).handed ++
          lastN (retainOf s.received 7).toNat (published s.received 7) := by
  have hrun : ∃ s, run broker initBroker retainTwo = some s ∧ (s.conn 0).isOpen = true ∧
      (s.conn 0).handed = [] ∧ retainOf s.received 7 = 2 ∧
      published s.received 7 = [packet7, packet7] ∧
      ∃ s', step s (.packet 0 (.wantId 7) fun _ => false) = some s' ∧
        (s'.conn 0).handed = [packet7] := ⟨_, rfl, rfl, rfl, rfl, rfl, _, rfl, rfl⟩
  obtain ⟨s, hs, ho, hh, hr, hp, s1, hs1, hh1⟩ := hrun
  refine ⟨s, Reach.run .init hs, ho, ?_⟩
  rintro ⟨s2, hs2, hh2⟩
  rw [hs1] at hs2
  cases hs2
  rw [hh1, hh, hr, hp] at hh2
  cases hh2

/-- Two packets are published, and the last one is sent. -/
theorem retained_iff_default :
    ∃ s, Reach broker s ∧ (published s.received 7).length = 2 ∧
      ∃ s', step s (.packet 0 (.wantId 7) fun _ => false) = some s' ∧
        (s'.conn 0).handed = (s.conn 0).handed ++
          lastN (retainOf s.received 7).toNat (published s.received 7) := by
  have hrun : ∃ s, run broker initBroker [.accept, .establish 0,
      .packet 0 packet7 (fun _ => false), .packet 0 packet7 (fun _ => false)] = some s ∧
      (s.conn 0).isOpen = true ∧ retainOf s.received 7 = 1 ∧
      (published s.received 7).length = 2 := ⟨_, rfl, rfl, rfl, rfl⟩
  obtain ⟨s, hs, ho, hr, hp⟩ := hrun
  have hreach : Reach broker s := Reach.run .init hs
  refine ⟨s, hreach, hp, (retained_iff hreach ho 7 _).mpr ⟨?_, ?_⟩⟩
  · rw [hr]
    rfl
  · intro e
    exact absurd e (by decide)

end Netp.Broker
