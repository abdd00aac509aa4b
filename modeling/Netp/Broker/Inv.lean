import Netp.Broker.Main

/-! # What the broker keeps

Since `SetRetain` packets are not routed to `recvSetRetain`, every ring has one slot: `ring p` is the only
shape there is, and `lastList` is a list of packets with different ids. `expected` says from the received
packets alone what a connection is to be handed of one id; `Inv` says that it is.
-/

namespace Netp.Broker
open Netp.Lib
set_option autoImplicit false

/-- Packets that `dispatchPacket` gives to `resendPacket`. -/
def Packet.isResent (p : Packet) : Bool :=
  p.msgId ≠ idPing && p.msgId ≠ idWantId && p.msgId ≠ idPacketType

theorem other_isResent (msgId : UInt32) (hid : msgId ∉ receives) (bytes : List UInt8) :
    (Packet.other msgId hid bytes).isResent = true := by
  have hne : msgId ≠ idPing ∧ msgId ≠ idWantId ∧ msgId ≠ idPacketType := by
    simp only [receives, List.mem_cons, not_or] at hid
    exact ⟨hid.1, hid.2.1, hid.2.2.2.1⟩
  simp [Packet.isResent, Packet.msgId, hne]

theorem dispatch_resent {p : Packet} (hp : p.isResent = true) (s : MainThread) (c : ConnId)
    (fails : ConnId → Bool) : s.dispatchPacket c p fails = s.resendPacket p fails := by
  have hid : ¬ (p.msgId = idPing ∨ p.msgId = idWantId ∨ p.msgId = idPacketType) := by
    simp only [Packet.isResent, Bool.and_eq_true, decide_eq_true_eq] at hp
    tauto
  rw [MainThread.dispatchPacket, if_neg hid]

/-- What one connection sees of the packets with the id `id`. -/
structure Sub where
  /-- A `WantId` for the id has been processed. -/
  wanted : Bool
  /-- The packet of the id that was resent last. -/
  last : Option Packet
  out : List Packet

/-- A `WantId` hands out the packet resent last, a packet that is resent is handed out where it is wanted
and the connection is open. -/
def Sub.see (c : ConnId) (id : UInt32) (a : Sub) (e : Received) : Sub :=
  match e.packet with
  | .wantId w =>
      if e.src = c ∧ w = toLong id then { a with wanted := true, out := a.out ++ a.last.toList } else a
  | .ping | .packetType _ => a
  | .setRetain _ _ | .other _ _ _ =>
      if e.packet.msgId = id then
        { a with
          last := some e.packet
          out := if a.wanted && e.isOpen c then a.out ++ [e.packet] else a.out }
      else a

/-- What a connection is to be handed of one id, from the packets received. -/
def expected (c : ConnId) (id : UInt32) (rs : List Received) : Sub :=
  rs.foldl (Sub.see c id) ⟨false, none, []⟩

theorem expected_snoc (c : ConnId) (id : UInt32) (rs : List Received) (e : Received) :
    expected c id (rs ++ [e]) = (expected c id rs).see c id e := by
  simp [expected]

/-! ## The rings -/

/-- A ring with one slot. -/
def ring (p : Packet) : Last := ⟨some p.msgId, 1, [some p], 0, 1⟩

/-- The packet takes the place of the one with its id. -/
def keepLast (p : Packet) : List Packet → List Packet
  | [] => [p]
  | q :: ks => if q.msgId = p.msgId then p :: ks else q :: keepLast p ks

theorem stash_ring (p : Packet) (ks : List Packet) :
    MainThread.stash p (ks.map ring) = some ((keepLast p ks).map ring) := by
  induction ks with
  | nil => rfl
  | cons q ks ih =>
    rw [List.map_cons, MainThread.stash, keepLast]
    by_cases h : q.msgId = p.msgId
    · have hid : (ring q).msgId = some p.msgId := congrArg some h
      rw [if_pos hid, if_pos h]
      simp [MainThread.store, ring, h]
    · have hid : (ring q).msgId ≠ some p.msgId := by
        intro e
        exact h (Option.some.inj e)
      rw [if_neg hid, if_neg h, ih]
      rfl

theorem mem_keepLast {p q : Packet} {ks : List Packet} (h : q ∈ keepLast p ks) : q = p ∨ q ∈ ks := by
  induction ks with
  | nil => exact Or.inl (List.mem_singleton.mp h)
  | cons r ks ih =>
    rw [keepLast] at h
    split at h
    · rcases List.mem_cons.mp h with h | h
      · exact Or.inl h
      · exact Or.inr (List.mem_cons_of_mem _ h)
    · rcases List.mem_cons.mp h with h | h
      · exact Or.inr (h ▸ List.mem_cons_self)
      · rcases ih h with h | h
        · exact Or.inl h
        · exact Or.inr (List.mem_cons_of_mem _ h)

theorem keepLast_nodup {p : Packet} {ks : List Packet} (h : (ks.map Packet.msgId).Nodup) :
    ((keepLast p ks).map Packet.msgId).Nodup := by
  induction ks with
  | nil => simp [keepLast]
  | cons q ks ih =>
    rw [List.map_cons, List.nodup_cons] at h
    rw [keepLast]
    split
    case isTrue heq =>
      rw [List.map_cons, List.nodup_cons, ← heq]
      exact h
    case isFalse hne =>
      rw [List.map_cons, List.nodup_cons]
      refine ⟨?_, ih h.2⟩
      intro hmem
      obtain ⟨r, hr, hrq⟩ := List.mem_map.mp hmem
      rcases mem_keepLast hr with rfl | hr
      · exact hne hrq.symm
      · exact h.1 (hrq ▸ List.mem_map_of_mem hr)

/-- The packet kept of an id. -/
def keptOf (ks : List Packet) (id : UInt32) : Option Packet := ks.find? fun p => p.msgId = id

theorem keptOf_keepLast (p : Packet) (ks : List Packet) (id : UInt32) :
    keptOf (keepLast p ks) id = if p.msgId = id then some p else keptOf ks id := by
  induction ks with
  | nil =>
    by_cases h : p.msgId = id <;> simp [keepLast, keptOf, h]
  | cons q ks ih =>
    unfold keptOf at ih ⊢
    rw [keepLast]
    by_cases h : q.msgId = p.msgId
    · by_cases hp : p.msgId = id <;> simp [h, hp]
    · rw [if_neg h]
      by_cases hq : q.msgId = id
      · have hp : p.msgId ≠ id := fun e => h (hq.trans e.symm)
        simp [hq, hp]
      · simp [hq, ih]

/-! ## The loops -/

section Loops
variable {s : MainThread} {c : ConnId}

theorem replay_ring (p : Packet) (fails : Bool) :
    MainThread.replay (ring p) c fails 1 0 s = s.send c (some p) fails := by
  unfold MainThread.replay
  simp only [ring, Int.toNat_zero, List.getElem?_cons_zero, Option.bind_some]
  cases h : s.send c (some p) fails with
  | none => rfl
  | some s' => rfl

theorem replayAll_none {wantId : ℤ} {fails : Bool} {ks : List Packet}
    (h : ∀ p ∈ ks, toLong p.msgId ≠ wantId) :
    MainThread.replayAll c wantId fails (ks.map ring) s = some s := by
  induction ks with
  | nil => rfl
  | cons p ks ih =>
    have hp : ((ring p).msgId.map toLong) ≠ some wantId := by
      intro e
      exact h p (by simp) (Option.some.inj e)
    rw [List.map_cons, MainThread.replayAll, if_neg hp]
    exact ih fun q hq => h q (by simp [hq])

theorem toLong_inj {a b : UInt32} (h : toLong a = toLong b) : a = b := by
  unfold toLong at h
  exact UInt32.toNat_inj.mp (by exact_mod_cast h)

theorem replayAll_ring {wantId : ℤ} {fails : Bool} {ks : List Packet}
    (hnodup : (ks.map Packet.msgId).Nodup) :
    MainThread.replayAll c wantId fails (ks.map ring) s =
      match ks.find? (fun p => toLong p.msgId = wantId) with
      | none => some s
      | some p => s.send c (some p) fails := by
  induction ks with
  | nil => rfl
  | cons p ks ih =>
    rw [List.map_cons, List.nodup_cons] at hnodup
    rw [List.map_cons, MainThread.replayAll]
    by_cases hp : toLong p.msgId = wantId
    · have hid : ((ring p).msgId.map toLong) = some wantId := congrArg some hp
      have hone : (ring p).retain ≠ 0 := by simp [ring]
      rw [if_pos hid, if_neg hone, List.find?_cons_of_pos (by simpa using hp)]
      show (MainThread.replay (ring p) c fails 1 0 s).bind _ = s.send c (some p) fails
      rw [replay_ring]
      cases s.send c (some p) fails with
      | none => rfl
      | some s' =>
        apply replayAll_none
        intro q hq e
        exact hnodup.1 (toLong_inj (hp.trans e.symm) ▸ List.mem_map_of_mem hq)
    · have hid : ((ring p).msgId.map toLong) ≠ some wantId := by
        intro e
        exact hp (Option.some.inj e)
      rw [if_neg hid, List.find?_cons_of_neg (by simpa using hp)]
      exact ih hnodup.2

/-- A connection after a packet is handed to it. -/
def Conn.hand (cc : Conn) (p : Packet) (fails : Bool) : Conn :=
  { cc with
    handed := cc.handed ++ [p]
    isEstablished := cc.isEstablished && !fails
    brokerConnClosed := cc.brokerConnClosed || fails }

theorem send_some {p : Packet} {fails : Bool} (h : (s.conn c).isEstablished = true) :
    s.send c (some p) fails = some (s.setConn c ((s.conn c).hand p fails)) := by
  simp [MainThread.send, h, Conn.hand]

/-- The connections a packet is handed to. -/
def isWanted (s : MainThread) (p : Packet) (out : ConnId) : Bool :=
  (s.conn out).isOpen && (s.conn out).wantIds.contains (toLong p.msgId)

/-- `resendPacket` hands the packet once to each connection of the list that is open and wants it. -/
theorem fanOut_spec {p : Packet} {fails : ConnId → Bool} {outs : List ConnId} (hnodup : outs.Nodup) :
    MainThread.fanOut p fails outs s = some { s with
      conn := fun d =>
        if d ∈ outs ∧ isWanted s p d = true then (s.conn d).hand p (fails d) else s.conn d } := by
  induction outs generalizing s with
  | nil => simp [MainThread.fanOut]
  | cons out outs ih =>
    obtain ⟨hout, hnodup⟩ := List.nodup_cons.mp hnodup
    rw [MainThread.fanOut]
    by_cases hw : isWanted s p out = true
    · have hest : (s.conn out).isEstablished = true := by
        simp only [isWanted, Conn.isOpen, Bool.and_eq_true] at hw
        exact hw.1.2
      have hcond : ((s.conn out).isOpen && (s.conn out).wantIds.contains (toLong p.msgId)) = true := hw
      rw [if_pos hcond, send_some hest, Option.bind_some, ih hnodup]
      congr 2
      funext d
      by_cases hd : d = out
      · subst hd
        simp [hout, hw, MainThread.setConn]
      · have hconn : (s.setConn out ((s.conn out).hand p (fails out))).conn d = s.conn d :=
          Function.update_of_ne hd _ _
        have hwd : isWanted (s.setConn out ((s.conn out).hand p (fails out))) p d = isWanted s p d := by
          simp only [isWanted, hconn]
        simp only [hconn, hwd, List.mem_cons, hd, false_or]
    · have hcond : ¬ ((s.conn out).isOpen && (s.conn out).wantIds.contains (toLong p.msgId)) = true :=
        hw
      rw [if_neg hcond, ih hnodup]
      congr 2
      funext d
      by_cases hd : d = out
      · subst hd
        simp [hout, hw]
      · simp [hd]

end Loops

/-! ## The invariant -/

structure Inv (s : MainThread) : Prop where
  nodup : s.connList.Nodup
  lt : ∀ c ∈ s.connList, c < s.nconn
  fresh : ∀ c, s.nconn ≤ c → s.conn c = Conn.fresh
  member : ∀ c, c < s.nconn → (s.conn c).brokerConnClosed = false → c ∈ s.connList
  lasts : ∃ ks, s.lastList = ks.map ring ∧ (ks.map Packet.msgId).Nodup ∧
    (∀ p ∈ ks, p.isResent = true) ∧ ∀ c id, keptOf ks id = (expected c id s.received).last
  wanted : ∀ c id, (s.conn c).wantIds.contains (toLong id) = (expected c id s.received).wanted
  handed : ∀ c id, (s.conn c).handed.filter (fun p => p.msgId = id) =
    (expected c id s.received).out
  resent : ∀ c, ∀ p ∈ (s.conn c).handed, p.isResent = true

section Inv
variable {s s' : MainThread} {c : ConnId}

theorem Inv.mem_of_open (h : Inv s) (ho : (s.conn c).isOpen = true) : c ∈ s.connList := by
  simp only [Conn.isOpen, Bool.and_eq_true, Bool.not_eq_true'] at ho
  apply h.member c _ ho.1
  by_contra hlt
  rw [h.fresh c (by omega)] at ho
  cases ho.2

theorem inv_init : Inv initBroker where
  nodup := List.nodup_nil
  lt := by
    intro c hc
    cases hc
  fresh _ _ := rfl
  member := by
    intro c hc
    cases hc
  lasts := ⟨[], rfl, List.nodup_nil, by simp, fun _ _ => rfl⟩
  wanted _ _ := rfl
  handed _ _ := rfl
  resent := by
    intro c p hp
    cases hp

theorem inv_accept (h : Inv s) :
    Inv { s with nconn := s.nconn + 1, connList := s.connList ++ [s.nconn] } where
  nodup := by
    refine List.nodup_append.mpr ⟨h.nodup, List.nodup_singleton _, ?_⟩
    intro a ha b hb
    rw [List.mem_singleton.mp hb]
    exact Nat.ne_of_lt (h.lt a ha)
  lt := by
    intro c hc
    rcases List.mem_append.mp hc with hc | hc
    · exact Nat.lt_succ_of_lt (h.lt c hc)
    · rw [List.mem_singleton.mp hc]
      exact Nat.lt_succ_self _
  fresh c hc := h.fresh c (Nat.le_of_succ_le hc)
  member := by
    intro c hc hcl
    by_cases hcn : c = s.nconn
    · simp [hcn]
    · have hlt : c < s.nconn := Nat.lt_of_le_of_ne (Nat.le_of_lt_succ hc) hcn
      exact List.mem_append_left _ (h.member c hlt hcl)
  lasts := h.lasts
  wanted := h.wanted
  handed := h.handed
  resent := h.resent

/-- A change of the state of one connection, not of what it wants or was handed. -/
theorem inv_setConn (h : Inv s) (est cl : Bool) (hlt : c < s.nconn)
    (hcl : cl = false → (s.conn c).brokerConnClosed = false) :
    Inv (s.setConn c { s.conn c with isEstablished := est, brokerConnClosed := cl }) := by
  have hother : ∀ d, d ≠ c → (s.setConn c { s.conn c with
      isEstablished := est, brokerConnClosed := cl }).conn d = s.conn d :=
    fun d hd => Function.update_of_ne hd _ _
  have hself : (s.setConn c { s.conn c with isEstablished := est, brokerConnClosed := cl }).conn c =
      { s.conn c with isEstablished := est, brokerConnClosed := cl } := Function.update_self _ _ _
  refine ⟨h.nodup, h.lt, ?_, ?_, h.lasts, ?_, ?_, ?_⟩
  · intro d hd
    rw [hother d (by intro e; exact absurd hd (by rw [e]; exact Nat.not_le_of_lt hlt))]
    exact h.fresh d hd
  · intro d hd hdc
    by_cases hdc' : d = c
    · rw [hdc', hself] at hdc
      exact hdc' ▸ h.member c hlt (hcl hdc)
    · rw [hother d hdc'] at hdc
      exact h.member d hd hdc
  · intro d id
    by_cases hd : d = c
    · rw [hd, hself]
      exact h.wanted c id
    · rw [hother d hd]
      exact h.wanted d id
  · intro d id
    by_cases hd : d = c
    · rw [hd, hself]
      exact h.handed c id
    · rw [hother d hd]
      exact h.handed d id
  · intro d
    by_cases hd : d = c
    · rw [hd, hself]
      exact h.resent c
    · rw [hother d hd]
      exact h.resent d

/-! ## Packets -/

theorem see_resent {p : Packet} (hp : p.isResent = true) (a : Sub) (src : ConnId) (id : UInt32)
    (isOpen : ConnId → Bool) :
    a.see c id ⟨src, p, isOpen⟩ =
      if p.msgId = id then
        { a with
          last := some p
          out := if a.wanted && isOpen c then a.out ++ [p] else a.out }
      else a := by
  cases p with
  | ping => cases hp
  | wantId w => cases hp
  | packetType f => cases hp
  | setRetain id retain => rfl
  | other msgId hid bytes => rfl

/-- A connection after a resent packet: handed the packet where it is open and wants it. -/
def afterResend (s : MainThread) (p : Packet) (fails : ConnId → Bool) (d : ConnId) : Conn :=
  if (s.conn d).isOpen && (expected d p.msgId s.received).wanted then (s.conn d).hand p (fails d)
  else s.conn d

theorem resendPacket_eq (h : Inv s) (p : Packet) (fails : ConnId → Bool) {ks : List Packet}
    (hks : s.lastList = ks.map ring) :
    (s.record c p).resendPacket p fails = some { s with
      conn := afterResend s p fails
      connList := s.connList.filter fun d => !(afterResend s p fails d).brokerConnClosed
      lastList := (keepLast p ks).map ring
      received := s.received ++ [⟨c, p, fun d => (s.conn d).isOpen⟩] } := by
  have hfan : MainThread.fanOut p fails s.connList (s.record c p) = some { s.record c p with
      conn := afterResend s p fails } := by
    rw [fanOut_spec h.nodup]
    congr 2
    funext d
    have hwant : isWanted (s.record c p) p d =
        ((s.conn d).isOpen && (expected d p.msgId s.received).wanted) := by
      rw [← h.wanted d p.msgId]
      rfl
    unfold afterResend
    rw [hwant]
    by_cases hd : ((s.conn d).isOpen && (expected d p.msgId s.received).wanted) = true
    · have hmem : d ∈ s.connList := h.mem_of_open (Bool.and_eq_true _ _ ▸ hd).1
      rw [if_pos ⟨hmem, hd⟩, if_pos hd]
      rfl
    · rw [if_neg (fun hc => hd hc.2), if_neg hd]
      rfl
  unfold MainThread.resendPacket
  show (MainThread.fanOut p fails s.connList (s.record c p)).bind _ = _
  rw [hfan, Option.bind_some]
  show (MainThread.stash p s.lastList).map _ = _
  rw [hks, stash_ring, Option.map_some]
  rfl

/-- A packet that is resent goes to the connections that are open and want it. -/
theorem resend_spec (h : Inv s) {p : Packet} (hp : p.isResent = true) (fails : ConnId → Bool) :
    ∃ s', (s.record c p).resendPacket p fails = some s' ∧ Inv s' := by
  obtain ⟨ks, hks, hnodup, hkres, hkept⟩ := h.lasts
  refine ⟨_, resendPacket_eq h p fails hks, ?_⟩
  refine ⟨h.nodup.filter _, ?_, ?_, ?_, ?_, ?_, ?_, ?_⟩
  · intro d hd
    exact h.lt d (List.mem_filter.mp hd).1
  · intro d hd
    show afterResend s p fails d = Conn.fresh
    have hfresh := h.fresh d hd
    unfold afterResend
    rw [hfresh]
    rfl
  · intro d hd hcl
    have hcl' : (afterResend s p fails d).brokerConnClosed = false := hcl
    refine List.mem_filter.mpr ⟨h.member d hd ?_, by simp [hcl']⟩
    unfold afterResend at hcl'
    split at hcl'
    · simp only [Conn.hand, Bool.or_eq_false_iff] at hcl'
      exact hcl'.1
    · exact hcl'
  · refine ⟨keepLast p ks, rfl, keepLast_nodup hnodup, ?_, ?_⟩
    · intro q hq
      rcases mem_keepLast hq with rfl | hq
      · exact hp
      · exact hkres q hq
    · intro d id
      rw [keptOf_keepLast, expected_snoc, see_resent hp, hkept d id]
      split <;> rfl
  · intro d id
    rw [expected_snoc, see_resent hp]
    have hsame : (afterResend s p fails d).wantIds = (s.conn d).wantIds := by
      unfold afterResend
      split <;> rfl
    show (afterResend s p fails d).wantIds.contains (toLong id) = _
    rw [hsame, h.wanted d id]
    split <;> rfl
  · intro d id
    rw [expected_snoc, see_resent hp]
    show (afterResend s p fails d).handed.filter _ = _
    unfold afterResend
    by_cases hid : p.msgId = id
    · subst hid
      rw [if_pos rfl]
      by_cases hd : ((s.conn d).isOpen && (expected d p.msgId s.received).wanted) = true
      · have hd' : ((expected d p.msgId s.received).wanted && (s.conn d).isOpen) = true := by
          rw [Bool.and_comm]
          exact hd
        rw [if_pos hd]
        simp only [hd', if_true]
        simp [Conn.hand, h.handed d p.msgId]
      · have hd' : ¬ ((expected d p.msgId s.received).wanted && (s.conn d).isOpen) = true := by
          rw [Bool.and_comm]
          exact hd
        rw [if_neg hd]
        simp only [hd', h.handed d p.msgId]
        rfl
    · rw [if_neg hid]
      split
      · simp [Conn.hand, hid, h.handed d id]
      · exact h.handed d id
  · intro d q hq
    have hq' : q ∈ (afterResend s p fails d).handed := hq
    unfold afterResend at hq'
    split at hq'
    · rcases List.mem_append.mp hq' with hq' | hq'
      · exact h.resent d q hq'
      · rw [List.mem_singleton.mp hq']
        exact hp
    · exact h.resent d q hq'

/-- The connection after its `WantId`. -/
def afterWantId (cc : Conn) (w : ℤ) (k : Option Packet) (fails : Bool) : Conn :=
  let cc := { cc with wantIds := w :: cc.wantIds }
  match k with
  | none => cc
  | some p => cc.hand p fails

theorem recvWantId_eq (ho : (s.conn c).isOpen = true) (w : ℤ) (fails : ConnId → Bool)
    {ks : List Packet} (hks : s.lastList = ks.map ring) (hnodup : (ks.map Packet.msgId).Nodup) :
    (s.record c (.wantId w)).recvWantId c w fails =
      some ((s.record c (.wantId w)).setConn c (afterWantId (s.conn c) w
        (ks.find? fun p => toLong p.msgId = w) (fails c))) := by
  unfold MainThread.recvWantId
  show MainThread.replayAll c w (fails c) s.lastList _ = _
  rw [hks, replayAll_ring hnodup]
  have hest : (s.conn c).isEstablished = true := by
    simp only [Conn.isOpen, Bool.and_eq_true] at ho
    exact ho.2
  cases ks.find? (fun p => toLong p.msgId = w) with
  | none => rfl
  | some p =>
    simp only
    rw [send_some]
    · simp [MainThread.setConn, afterWantId, MainThread.record]
    · simpa [MainThread.setConn, MainThread.record] using hest

theorem find_toLong (ks : List Packet) (id : UInt32) :
    (ks.find? fun p => toLong p.msgId = toLong id) = keptOf ks id := by
  unfold keptOf
  congr 1
  funext p
  rw [decide_eq_decide]
  exact ⟨toLong_inj, fun e => by rw [e]⟩

theorem see_wantId (a : Sub) (w : ℤ) (src d : ConnId) (id : UInt32) (isOpen : ConnId → Bool) :
    a.see d id ⟨src, .wantId w, isOpen⟩ =
      if src = d ∧ w = toLong id then { a with wanted := true, out := a.out ++ a.last.toList }
      else a := rfl

theorem wantId_spec (h : Inv s) (ho : (s.conn c).isOpen = true) (w : ℤ) (fails : ConnId → Bool) :
    ∃ s', (s.record c (.wantId w)).recvWantId c w fails = some s' ∧ Inv s' := by
  obtain ⟨ks, hks, hnodup, hkres, hkept⟩ := h.lasts
  refine ⟨_, recvWantId_eq ho w fails hks hnodup, ?_⟩
  generalize hk : (ks.find? fun p => toLong p.msgId = w) = k
  have hkw : ∀ p ∈ k, toLong p.msgId = w := by
    intro p hp
    rw [← hk] at hp
    simpa using List.find?_some hp
  have hself : ((s.record c (.wantId w)).setConn c (afterWantId (s.conn c) w k (fails c))).conn c =
      afterWantId (s.conn c) w k (fails c) := Function.update_self _ _ _
  have hother : ∀ d, d ≠ c → ((s.record c (.wantId w)).setConn c
      (afterWantId (s.conn c) w k (fails c))).conn d = s.conn d :=
    fun d hd => Function.update_of_ne hd _ _
  have hlt : c < s.nconn := h.lt c (h.mem_of_open ho)
  refine ⟨h.nodup, h.lt, ?_, ?_, ?_, ?_, ?_, ?_⟩
  · intro d hd
    have hne : d ≠ c := by
      intro e
      exact Nat.not_le_of_lt hlt (e ▸ hd)
    rw [hother d hne]
    exact h.fresh d hd
  · intro d hd hcl
    by_cases hdc : d = c
    · rw [hdc]
      exact h.mem_of_open ho
    · rw [hother d hdc] at hcl
      exact h.member d hd hcl
  · refine ⟨ks, hks, hnodup, hkres, ?_⟩
    intro d id
    show keptOf ks id = (expected d id (s.received ++ [_])).last
    rw [expected_snoc, see_wantId, hkept d id]
    split <;> rfl
  · intro d id
    show _ = (expected d id (s.received ++ [_])).wanted
    rw [expected_snoc, see_wantId]
    by_cases hdc : d = c
    · subst hdc
      rw [hself]
      have hids : (afterWantId (s.conn d) w k (fails d)).wantIds = w :: (s.conn d).wantIds := by
        cases k <;> rfl
      rw [hids, List.contains_cons, h.wanted d id]
      by_cases hw : w = toLong id
      · rw [if_pos ⟨rfl, hw⟩]
        simp [hw]
      · have hw' : (toLong id == w) = false := by simpa using fun e => hw e.symm
        rw [if_neg (fun e => hw e.2), hw']
        rfl
    · rw [hother d hdc, if_neg (fun e => hdc e.1.symm)]
      exact h.wanted d id
  · intro d id
    show _ = (expected d id (s.received ++ [_])).out
    rw [expected_snoc, see_wantId]
    by_cases hdc : d = c
    · subst hdc
      rw [hself]
      have hhanded : (afterWantId (s.conn d) w k (fails d)).handed =
          (s.conn d).handed ++ k.toList := by
        cases k with
        | none => simp [afterWantId]
        | some p => rfl
      rw [hhanded, List.filter_append, h.handed d id]
      by_cases hw : w = toLong id
      · have hlast : (expected d id s.received).last = k := by
          rw [← hkept d id, ← find_toLong, ← hw, hk]
        have hkeep : k.toList.filter (fun p => p.msgId = id) = k.toList := by
          rw [List.filter_eq_self]
          intro p hp
          have := hkw p (by simpa using hp)
          simpa using toLong_inj (this.trans hw)
        rw [if_pos ⟨rfl, hw⟩, hkeep, hlast]
      · have hdrop : k.toList.filter (fun p => p.msgId = id) = [] := by
          rw [List.filter_eq_nil_iff]
          intro p hp e
          have hpw := hkw p (by simpa using hp)
          have hid : p.msgId = id := by simpa using e
          exact hw (by rw [← hpw, hid])
        rw [if_neg (fun e => hw e.2), hdrop, List.append_nil]
    · rw [hother d hdc, if_neg (fun e => hdc e.1.symm)]
      exact h.handed d id
  · intro d p hp
    by_cases hdc : d = c
    · subst hdc
      rw [hself] at hp
      cases hk' : k with
      | none =>
        rw [hk'] at hp
        exact h.resent d p hp
      | some q =>
        rw [hk'] at hp
        rcases List.mem_append.mp hp with hp | hp
        · exact h.resent d p hp
        · rw [List.mem_singleton.mp hp]
          exact hkres q (List.mem_of_find?_eq_some (hk.trans hk'))
    · rw [hother d hdc] at hp
      exact h.resent d p hp

/-- A packet that only `Main` sees changes nothing but the record. -/
theorem inv_record (h : Inv s) {p : Packet} (hp : p = .ping ∨ ∃ f, p = .packetType f) :
    Inv (s.record c p) := by
  have hsee : ∀ d id, expected d id (s.record c p).received = expected d id s.received := by
    intro d id
    show expected d id (s.received ++ [_]) = _
    rw [expected_snoc]
    rcases hp with rfl | ⟨f, rfl⟩ <;> rfl
  refine ⟨h.nodup, h.lt, h.fresh, h.member, ?_, ?_, ?_, h.resent⟩
  · obtain ⟨ks, hks, hnodup, hkres, hkept⟩ := h.lasts
    exact ⟨ks, hks, hnodup, hkres, fun d id => by rw [hsee d id]; exact hkept d id⟩
  · intro d id
    rw [hsee d id]
    exact h.wanted d id
  · intro d id
    rw [hsee d id]
    exact h.handed d id

theorem dispatch_spec (h : Inv s) (ho : (s.conn c).isOpen = true) (p : Packet)
    (fails : ConnId → Bool) :
    ∃ s', (s.record c p).dispatchPacket c p fails = some s' ∧ Inv s' := by
  cases p with
  | ping => exact ⟨_, rfl, inv_record h (Or.inl rfl)⟩
  | wantId w => exact wantId_spec h ho w fails
  | setRetain id retain => exact resend_spec h rfl fails
  | packetType f => exact ⟨_, rfl, inv_record h (Or.inr ⟨f, rfl⟩)⟩
  | other msgId hid bytes =>
    have hres := other_isResent msgId hid bytes
    rw [dispatch_resent hres]
    exact resend_spec h hres fails

theorem inv_step {a : Act} (h : Inv s) (hs : step s a = some s') : Inv s' := by
  cases a with
  | accept =>
    cases hs
    exact inv_accept h
  | establish c =>
    simp only [step] at hs
    split at hs
    case isTrue hc =>
      cases hs
      exact inv_setConn h true _ hc.1 id
    case isFalse => cases hs
  | close c =>
    simp only [step] at hs
    split at hs
    case isTrue ho =>
      cases hs
      exact inv_setConn h false true (h.lt c (h.mem_of_open ho)) (fun e => by cases e)
    case isFalse => cases hs
  | packet c p fails =>
    simp only [step] at hs
    split at hs
    case isTrue ho =>
      obtain ⟨s1, h1, hinv⟩ := dispatch_spec h ho p fails
      rw [h1] at hs
      cases hs
      exact hinv
    case isFalse => cases hs

theorem reach_inv (h : Reach broker s) : Inv s :=
  ReachIf.invariant (I := Inv) inv_init (fun _ _ _ hi _ hs => inv_step hi hs) h

end Inv

end Netp.Broker
