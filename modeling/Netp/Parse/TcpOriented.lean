import Netp.Parse.Tcp

/-! # The orientation of connections

Every packet of a known half leaves `halfDict` and the addresses of the halves alone (`SameHalves`), so
that it is the packets that begin a connection that decide. `newConn_orientable` says of these exactly
which ones build it the right way round, and `tcp_oriented` carries this through whole runs.
-/

namespace Netp.Parse
open Netp.Lib
set_option autoImplicit false

/-! ## Keys -/

theorem HalfKey.swapDir_swapDir (k : HalfKey) : k.swapDir.swapDir = k := rfl

def TrackedConn.keys (c : TrackedConn) (side : Side) : HalfKey := (c.half side).key

theorem setSeq_keys (c : TrackedConn) (side : Side) (seq : UInt32) :
    (c.setSeq side seq).keys = c.keys := by
  funext x
  cases side <;> cases x <;> rfl

namespace Tracker
variable {s t : Tracker}

/-- The entries of `halfDict` with a key. -/
def entries (s : Tracker) (key : HalfKey) : List (HalfKey × HalfRef) :=
  s.halfDict.filter fun p => p.1 = key

theorem find_eq (s : Tracker) (key : HalfKey) :
    s.find key = (s.entries key).head?.map Prod.snd := by
  rw [entries, List.head?_filter]
  rfl

theorem find_none_iff (s : Tracker) (key : HalfKey) : s.find key = none ↔ s.entries key = [] := by
  rw [find_eq, Option.map_eq_none_iff, List.head?_eq_none_iff]

/-! ## A new connection -/

theorem insert_conns (s : Tracker) (key : HalfKey) (half : HalfRef) :
    (s.insert key half).conns = s.conns := by
  unfold insert
  split_ifs <;> rfl

theorem halfDict_insert (s : Tracker) (key : HalfKey) (half : HalfRef) :
    s.halfDict <+: (s.insert key half).halfDict := by
  unfold insert
  split_ifs
  · exact List.prefix_refl _
  · exact List.prefix_append _ _

theorem insert_new {key : HalfKey} (h : s.find key = none) (half : HalfRef) :
    (s.insert key half).halfDict = s.halfDict ++ [(key, half)] := by
  rw [insert, h]
  rfl

theorem insert_entries {key : HalfKey} (h : s.find key = none) (half : HalfRef) (k : HalfKey) :
    (s.insert key half).entries k = s.entries k ++ if key = k then [(key, half)] else [] := by
  rw [entries, insert_new h, List.filter_append, ← entries]
  by_cases hk : key = k <;> simp [hk]

theorem insert_isSome (s : Tracker) (key : HalfKey) (half : HalfRef) :
    ((s.insert key half).find key).isSome := by
  cases h : s.find key with
  | some x => simp [insert, h]
  | none =>
    rw [find_eq, insert_entries h, (find_none_iff s key).mp h]
    simp

theorem add_conns (s : Tracker) (c : TrackedConn) : (s.add c).conns = s.conns ++ [c] := by
  rw [add, insert_conns, insert_conns]

theorem halfDict_add (s : Tracker) (c : TrackedConn) : s.halfDict <+: (s.add c).halfDict := by
  have hfirst := halfDict_insert { s with conns := s.conns ++ [c] } c.h1.key (s.conns.length, .h1)
  exact hfirst.trans (halfDict_insert _ _ _)

/-- Both halves are new entries, if neither is there before and the two differ. -/
theorem add_entries {c : TrackedConn} (h1 : s.find c.h1.key = none) (h2 : s.find c.h2.key = none)
    (hne : c.h1.key ≠ c.h2.key) (k : HalfKey) :
    (s.add c).entries k = s.entries k ++
      ((if c.h1.key = k then [(c.h1.key, (s.conns.length, .h1))] else []) ++
        if c.h2.key = k then [(c.h2.key, (s.conns.length, .h2))] else []) := by
  have hfirst := insert_entries (s := { s with conns := s.conns ++ [c] }) h1 (s.conns.length, .h1)
  have hsecond : ({ s with conns := s.conns ++ [c] }.insert c.h1.key
      (s.conns.length, .h1)).find c.h2.key = none := by
    rw [find_none_iff, hfirst, if_neg hne, List.append_nil]
    exact (find_none_iff s _).mp h2
  rw [add, insert_entries hsecond, hfirst, List.append_assoc]
  rfl

/-- The connection that a packet begins. -/
def newConn (dir : Dir) (page : Text) : TrackedConn :=
  match synAckBits page with
  | (true, false) => .new (halfKey page) ⟨.syn, dir, Conn.init⟩ (thSeq page) 0
  | (true, true) =>
      .new (halfKey page).swapDir ⟨.synAck, if dir = .ingress then .egress else .ingress, Conn.init⟩
        (thAckSeq page) (thSeq page)
  | (false, true) =>
      .new (if dir = .ingress then (halfKey page).swapDir else halfKey page)
        (TcpConn.established ⟨.established, dir, Conn.init⟩) (thSeq page) (thAckSeq page)
  | (false, false) =>
      .new (if dir = .ingress then (halfKey page).swapDir else halfKey page)
        (TcpConn.established ⟨.established, .unknown, Conn.init⟩) (thAckSeq page) (thSeq page)

theorem createConnection_eq (s : Tracker) (dir : Dir) (page : Text) :
    s.createConnection dir page = (s.add (newConn dir page), (s.conns.length, .h1)) := by
  unfold createConnection newConn
  rcases synAckBits page with ⟨_ | _, _ | _⟩ <;> rfl

/-- The ends of a new connection are those of the packet, in one order or the other. -/
theorem newConn_keys (dir : Dir) (page : Text) :
    ((newConn dir page).h1.key = halfKey page ∨ (newConn dir page).h1.key = (halfKey page).swapDir) ∧
      (newConn dir page).h2.key = (newConn dir page).h1.key.swapDir := by
  unfold newConn
  rcases synAckBits page with ⟨_ | _, _ | _⟩ <;> by_cases hdir : dir = .ingress <;>
    simp [hdir, TrackedConn.new]

end Tracker

/-! ## The half of the sender -/

section Source
variable {page : Text} {seq : UInt32}

theorem isSource_self : (TcpHalf.mk (halfKey page) seq).IsSource page := ⟨rfl, rfl⟩

/-- The other end is the source only of a packet from an address to itself. -/
theorem isSource_swap_iff :
    (TcpHalf.mk (halfKey page).swapDir seq).IsSource page ↔ (halfKey page).swapDir = halfKey page := by
  simp only [TcpHalf.IsSource, HalfKey.swapDir]
  rcases halfKey page with ⟨a, b, p, q⟩
  simp only [HalfKey.mk.injEq]
  constructor
  · rintro ⟨rfl, rfl⟩
    exact ⟨rfl, rfl, rfl, rfl⟩
  · rintro ⟨hb, -, hq, -⟩
    exact ⟨hb, hq⟩

/-- A connection whose `h1` is the sender's has the numbers of the packet in this order. -/
theorem numbered_new_iff (hne : (halfKey page).swapDir ≠ halfKey page) (created : Bool)
    (conn : TcpConn) (seq1 seq2 : UInt32) (side : Side) :
    Processed.Numbered ⟨page, created, .new (halfKey page) conn seq1 seq2, side⟩ ↔
      seq1 = thSeq page ∧ seq2 = ackNumber page := by
  have hfirst : ∀ x, ((TrackedConn.new (halfKey page) conn seq1 seq2).half x).IsSource page ↔
      x = .h1 := by
    intro x
    cases x with
    | h1 => exact iff_of_true isSource_self rfl
    | h2 => exact iff_of_false (fun h => hne (isSource_swap_iff.mp h)) (by decide)
  constructor
  · rintro ⟨sender, hsender, hseq, hack⟩
    have hsend : sender = .h1 := (hfirst sender).mp ((hsender sender).mpr rfl)
    subst hsend
    exact ⟨hseq, hack⟩
  · rintro ⟨hseq, hack⟩
    exact ⟨.h1, hfirst, hseq, hack⟩

theorem newConn_orientable (dir : Dir) (hne : (halfKey page).swapDir ≠ halfKey page) :
    ((Tracker.newConn dir page).h1.IsSource page ∧
        Processed.Numbered ⟨page, true, Tracker.newConn dir page, .h1⟩) ↔ Orientable dir page := by
  have hright : ∀ (conn : TcpConn) (seq1 seq2 : UInt32),
      (TrackedConn.new (halfKey page) conn seq1 seq2).h1.IsSource page := fun _ _ _ => isSource_self
  have hswapped : ∀ (conn : TcpConn) (seq1 seq2 : UInt32),
      ¬ (TrackedConn.new (halfKey page).swapDir conn seq1 seq2).h1.IsSource page :=
    fun _ _ _ h => hne (isSource_swap_iff.mp h)
  have hack : ackNumber page = if (synAckBits page).2 then thAckSeq page else 0 := rfl
  unfold Tracker.newConn Orientable
  generalize synAckBits page = bits at hack ⊢
  obtain ⟨syn, ack⟩ := bits
  by_cases hdir : dir = .ingress
  · -- The ends are swapped, but for a SYN.
    cases syn <;> cases ack <;> simp [hdir, hright, hswapped, numbered_new_iff hne, hack, hne]
  · cases syn <;> cases ack
    · simp only [hdir, if_false, numbered_new_iff hne, hright, hack, true_and]
      simp only [Bool.false_eq_true, if_false, ne_eq, hne, hdir, not_false_eq_true, true_and]
      constructor
      · rintro ⟨hseq, hzero⟩
        exact ⟨hzero, hseq.trans hzero⟩
      · rintro ⟨hzero, hseq⟩
        exact ⟨hseq.trans hzero.symm, hzero⟩
    · simp [hdir, hright, numbered_new_iff hne, hack, hne]
    · simp [hright, numbered_new_iff hne, hack, hne]
    · simp [hswapped]

end Source

/-! ## Packets of known halves -/

namespace Tracker
variable {s t u : Tracker}

/-- The same entries, and the same keys in the halves. -/
structure SameHalves (s t : Tracker) : Prop where
  dict : t.halfDict = s.halfDict
  keys : ∀ n : ℕ, t.conns[n]?.map TrackedConn.keys = s.conns[n]?.map TrackedConn.keys

theorem SameHalves.refl (s : Tracker) : SameHalves s s := ⟨rfl, fun _ => rfl⟩

theorem SameHalves.trans (h : SameHalves s t) (h' : SameHalves t u) : SameHalves s u :=
  ⟨h'.dict.trans h.dict, fun n => (h'.keys n).trans (h.keys n)⟩

theorem setConn_same (s : Tracker) (n : ℕ) {f : TrackedConn → TrackedConn}
    (hf : ∀ c, (f c).keys = c.keys) : SameHalves s (s.setConn n f) := by
  refine ⟨rfl, fun i => ?_⟩
  rw [setConn, List.getElem?_modify]
  cases s.conns[i]? with
  | none => rfl
  | some c =>
    by_cases hi : n = i
    · simp [hi, hf]
    · simp [hi]

theorem flowSynState_same (s : Tracker) (n : ℕ) (c : TrackedConn) (dir : Dir) (page : Text) :
    SameHalves s (s.flowSynState n c dir page) := by
  unfold flowSynState
  split_ifs
  · exact .refl s
  · rcases synAckBits page with ⟨_ | _, _ | _⟩
    · exact .refl s
    · exact .refl s
    · exact .refl s
    · refine setConn_same s n fun c => ?_
      rw [setSeq_keys, setSeq_keys]
      rfl

theorem flowSynAckState_same (s : Tracker) (n : ℕ) (c : TrackedConn) (dir : Dir) (page : Text) :
    SameHalves s (s.flowSynAckState n c dir page) := by
  unfold flowSynAckState
  split_ifs
  · rcases synAckBits page with ⟨_ | _, _ | _⟩
    · exact .refl s
    · refine setConn_same s n fun c => ?_
      rw [setSeq_keys]
      rfl
    · exact .refl s
    · exact .refl s
  · exact .refl s

theorem flowEstabState_same {half : HalfRef} {pktseq : UInt32} {data : Text} {dlen caplen : ℤ}
    (h : s.flowEstabState half pktseq data dlen caplen = some t) : SameHalves s t := by
  have hdata : SameHalves s (s.setConn half.1 fun c => { c with conn := { c.conn with
      conn := flowData c.conn.conn half.2 (readBytes data caplen) } }) :=
    setConn_same s _ fun _ => rfl
  unfold flowEstabState at h
  simp only at h
  split_ifs at h with hneg hlt
  · obtain rfl := Option.some.inj h
    exact ⟨hdata.dict, hdata.keys⟩
  · obtain rfl := Option.some.inj h
    have hseq := hdata.trans
      (setConn_same _ half.1 fun c => setSeq_keys c half.2 (pktseq + UInt32.ofInt dlen))
    exact ⟨hseq.dict, hseq.keys⟩

/-- A packet begins a connection, or it is one of a known half and the halves stay as they are. -/
theorem tcp_cases {dir : Dir} {page : Text} {caplen : ℤ} {half : HalfRef}
    (h : s.tcp dir page caplen = some (t, half)) :
    (s.find (halfKey page) = none ∧ t = s.add (newConn dir page) ∧ half = (s.conns.length, .h1)) ∨
      (s.find (halfKey page) = some half ∧ SameHalves s t) := by
  unfold tcp at h
  cases hfind : s.find (halfKey page) with
  | none =>
    rw [hfind] at h
    simp only [createConnection_eq, Option.some.injEq, Prod.mk.injEq] at h
    exact .inl ⟨rfl, h.1.symm, h.2.symm⟩
  | some known =>
    rw [hfind] at h
    simp only at h
    cases hget : s.conns[known.1]? with
    | none => simp [hget] at h
    | some c =>
      rw [hget] at h
      simp only at h
      right
      cases hstate : c.conn.state with
      | syn =>
        simp only [hstate, Option.some.injEq, Prod.mk.injEq] at h
        obtain ⟨rfl, rfl⟩ := h
        exact ⟨rfl, flowSynState_same s _ c dir page⟩
      | synAck =>
        simp only [hstate, Option.some.injEq, Prod.mk.injEq] at h
        obtain ⟨rfl, rfl⟩ := h
        exact ⟨rfl, flowSynAckState_same s _ c dir page⟩
      | established =>
        simp only [hstate, Option.map_eq_some_iff, Prod.mk.injEq] at h
        obtain ⟨t', hflow, rfl, rfl⟩ := h
        exact ⟨rfl, flowEstabState_same hflow⟩

/-! ## What holds of every run -/

/-- The entries are halves of connections, and the halves of connections have entries. -/
structure Indexed (s : Tracker) : Prop where
  refs : ∀ p ∈ s.halfDict, ∃ c, s.conns[p.2.1]? = some c ∧ c.keys p.2.2 = p.1
  known : ∀ (n : ℕ) (c : TrackedConn), s.conns[n]? = some c → ∀ side, (s.find (c.keys side)).isSome
  mirrored : ∀ (n : ℕ) (c : TrackedConn), s.conns[n]? = some c → c.keys .h2 = (c.keys .h1).swapDir

/-- Each half has its own entry, and no other entry has its key. -/
def Alone (s : Tracker) : Prop :=
  ∀ (n : ℕ) (c : TrackedConn), s.conns[n]? = some c →
    ∀ side, s.entries (c.keys side) = [(c.keys side, (n, side))]

/-- What is said of the keys of the connections goes over to the same halves. -/
theorem SameHalves.lift (h : SameHalves s t) {P : ℕ → (Side → HalfKey) → Prop}
    (hs : ∀ (n : ℕ) (c : TrackedConn), s.conns[n]? = some c → P n c.keys) (n : ℕ) (c : TrackedConn)
    (hc : t.conns[n]? = some c) : P n c.keys := by
  have hkeys := h.keys n
  rw [hc, Option.map_some] at hkeys
  obtain ⟨c', hc', heq⟩ := Option.map_eq_some_iff.mp hkeys.symm
  rw [← heq]
  exact hs n c' hc'

theorem SameHalves.find (h : SameHalves s t) (key : HalfKey) : t.find key = s.find key := by
  rw [Tracker.find, Tracker.find, h.dict]

theorem SameHalves.symm (h : SameHalves s t) : SameHalves t s :=
  ⟨h.dict.symm, fun n => (h.keys n).symm⟩

theorem SameHalves.alone (h : SameHalves s t) (ha : s.Alone) : t.Alone := by
  have hentries : ∀ key, t.entries key = s.entries key := fun key => by
    rw [entries, entries, h.dict]
  refine h.lift (P := fun n keys => ∀ side, t.entries (keys side) = [(keys side, (n, side))]) ?_
  intro n c hc side
  rw [hentries]
  exact ha n c hc side

theorem SameHalves.indexed (h : SameHalves s t) (hi : s.Indexed) : t.Indexed := by
  refine ⟨?_, ?_, h.lift (P := fun _ keys => keys .h2 = (keys .h1).swapDir) hi.mirrored⟩
  · intro p hp
    rw [h.dict] at hp
    obtain ⟨c, hc, hkey⟩ := hi.refs p hp
    have hkeys := h.keys p.2.1
    rw [hc, Option.map_some] at hkeys
    obtain ⟨c', hc', heq⟩ := Option.map_eq_some_iff.mp hkeys
    exact ⟨c', hc', by rw [heq, hkey]⟩
  · refine h.lift (P := fun _ keys => ∀ side, (t.find (keys side)).isSome) ?_
    intro n c hc side
    rw [h.find]
    exact hi.known n c hc side

theorem getElem?_add {c : TrackedConn} {n : ℕ} {c' : TrackedConn}
    (h : (s.add c).conns[n]? = some c') :
    s.conns[n]? = some c' ∨ (n = s.conns.length ∧ c' = c) := by
  rw [add_conns] at h
  by_cases hlt : n < s.conns.length
  · rw [List.getElem?_append_left hlt] at h
    exact .inl h
  · rw [List.getElem?_append_right (by omega)] at h
    have hzero : n - s.conns.length = 0 := by
      obtain ⟨hlt', -⟩ := List.getElem?_eq_some_iff.mp h
      simpa using hlt'
    rw [hzero] at h
    exact .inr ⟨by omega, by simpa using h.symm⟩

theorem getElem?_add_of_some (c : TrackedConn) {n : ℕ} {c' : TrackedConn}
    (h : s.conns[n]? = some c') : (s.add c).conns[n]? = some c' := by
  obtain ⟨hlt, -⟩ := List.getElem?_eq_some_iff.mp h
  rw [add_conns, List.getElem?_append_left hlt]
  exact h

theorem getElem?_add_length (s : Tracker) (c : TrackedConn) :
    (s.add c).conns[s.conns.length]? = some c := by
  rw [add_conns, List.getElem?_concat_length]

theorem isSome_find_of_prefix (h : s.halfDict <+: t.halfDict) {key : HalfKey}
    (hs : (s.find key).isSome) : (t.find key).isSome := by
  obtain ⟨rest, hrest⟩ := h
  have hentries : t.entries key = s.entries key ++ rest.filter fun p => p.1 = key := by
    rw [entries, ← hrest, List.filter_append]
    rfl
  obtain ⟨half, hhalf⟩ := Option.isSome_iff_exists.mp hs
  rw [find_eq] at hhalf ⊢
  obtain ⟨p, hp, -⟩ := Option.map_eq_some_iff.mp hhalf
  rw [hentries, List.head?_append, hp]
  rfl

theorem mem_insert {key : HalfKey} {half : HalfRef} {p : HalfKey × HalfRef}
    (h : p ∈ (s.insert key half).halfDict) : p ∈ s.halfDict ∨ p = (key, half) := by
  unfold insert at h
  split_ifs at h
  · exact .inl h
  · simpa using h

theorem add_indexed (hi : s.Indexed) {c : TrackedConn} (hc : c.h2.key = c.h1.key.swapDir) :
    (s.add c).Indexed := by
  refine ⟨?_, ?_, ?_⟩
  · intro p hp
    have hself := getElem?_add_length s c
    rcases mem_insert hp with hp | rfl
    · rcases mem_insert hp with hp | rfl
      · obtain ⟨c', hc', hkey⟩ := hi.refs p hp
        exact ⟨c', getElem?_add_of_some c hc', hkey⟩
      · exact ⟨c, hself, rfl⟩
    · exact ⟨c, hself, rfl⟩
  · intro n c' hc' side
    rcases getElem?_add hc' with hold | ⟨-, rfl⟩
    · exact isSome_find_of_prefix (halfDict_add s c) (hi.known n c' hold side)
    · cases side with
      | h1 => exact isSome_find_of_prefix (halfDict_insert _ _ _) (insert_isSome _ _ _)
      | h2 => exact insert_isSome _ _ _
  · intro n c' hc'
    rcases getElem?_add hc' with hold | ⟨-, rfl⟩
    · exact hi.mirrored n c' hold
    · exact hc

theorem Indexed.find_swap (hi : s.Indexed) {key : HalfKey} (h : s.find key = none) :
    s.find key.swapDir = none := by
  cases hfind : s.find key.swapDir with
  | none => rfl
  | some half =>
    obtain ⟨p, hp, -⟩ := Option.map_eq_some_iff.mp hfind
    have hkey : p.1 = key.swapDir := by simpa using List.find?_some hp
    obtain ⟨c, hc, hside⟩ := hi.refs p (List.mem_of_find?_eq_some hp)
    have hmirror := hi.mirrored _ c hc
    have hopp : c.keys p.2.2.opposite = key := by
      rw [hkey] at hside
      cases hx : p.2.2 with
      | h1 =>
        rw [hx] at hside
        rw [Side.opposite, hmirror, hside]
        rfl
      | h2 =>
        rw [hx, hmirror] at hside
        exact congrArg HalfKey.swapDir hside
    have hknown := hi.known _ c hc p.2.2.opposite
    rw [hopp, h] at hknown
    cases hknown

theorem add_alone (ha : s.Alone) {c : TrackedConn} (h1 : s.find c.h1.key = none)
    (h2 : s.find c.h2.key = none) (hne : c.h1.key ≠ c.h2.key) : (s.add c).Alone := by
  intro n c' hc' side
  rw [add_entries h1 h2 hne]
  rcases getElem?_add hc' with hold | ⟨rfl, rfl⟩
  · have hentries := ha n c' hold side
    have hother : ∀ key, s.find key = none → ¬ key = c'.keys side := by
      rintro key hnone rfl
      rw [(find_none_iff s _).mp hnone] at hentries
      cases hentries
    rw [if_neg (hother _ h1), if_neg (hother _ h2), hentries]
    rfl
  · cases side with
    | h1 =>
      have hself : c'.keys .h1 = c'.h1.key := rfl
      rw [hself, (find_none_iff s _).mp h1, if_pos rfl, if_neg (Ne.symm hne)]
      rfl
    | h2 =>
      have hself : c'.keys .h2 = c'.h2.key := rfl
      rw [hself, (find_none_iff s _).mp h2, if_neg hne, if_pos rfl]
      rfl

/-- The connections with their keys stay, and so do the entries. -/
structure Extends (s t : Tracker) : Prop where
  dict : s.halfDict <+: t.halfDict
  keys : ∀ (n : ℕ) (c : TrackedConn), s.conns[n]? = some c →
    ∃ c', t.conns[n]? = some c' ∧ c'.keys = c.keys

theorem SameHalves.extends (h : SameHalves s t) : Extends s t := by
  refine ⟨h.dict ▸ List.prefix_refl _, ?_⟩
  exact h.symm.lift (P := fun n keys => ∃ c', t.conns[n]? = some c' ∧ c'.keys = keys)
    fun n c hc => ⟨c, hc, rfl⟩

theorem add_extends (s : Tracker) (c : TrackedConn) : Extends s (s.add c) :=
  ⟨halfDict_add s c, fun _ c' hc' => ⟨c', getElem?_add_of_some c hc', rfl⟩⟩

theorem Extends.alone (h : Extends s t) (hi : s.Indexed) (ha : t.Alone) : s.Alone := by
  intro n c hc side
  obtain ⟨c', hc', hkeys⟩ := h.keys n c hc
  have hlater := ha n c' hc' side
  rw [hkeys] at hlater
  obtain ⟨rest, hrest⟩ := h.dict
  have hsplit : t.entries (c.keys side) = s.entries (c.keys side) ++
      rest.filter fun p => p.1 = c.keys side := by
    rw [entries, ← hrest, List.filter_append]
    rfl
  have hsome := hi.known n c hc side
  rw [find_eq] at hsome
  cases hentries : s.entries (c.keys side) with
  | nil => simp [hentries] at hsome
  | cons p ps =>
    rw [hsplit, hentries, List.cons_append, List.cons.injEq, List.append_eq_nil_iff] at hlater
    rw [hlater.1, hlater.2.1]

theorem Indexed.keys_of_find (hi : s.Indexed) {key : HalfKey} {half : HalfRef}
    (h : s.find key = some half) : ∃ c, s.conns[half.1]? = some c ∧ c.keys half.2 = key := by
  obtain ⟨p, hp, rfl⟩ := Option.map_eq_some_iff.mp h
  have hkey : p.1 = key := by simpa using List.find?_some hp
  obtain ⟨c, hc, hside⟩ := hi.refs p (List.mem_of_find?_eq_some hp)
  exact ⟨c, hc, hside.trans hkey⟩

end Tracker

/-! ## Runs -/

namespace Tracking
variable {s t : Tracking}

/-- A packet that begins a connection, a packet of a known half, and the rest of a packet. -/
theorem step_cases {a : Arrival} (h : s.step a = some t) :
    (∃ dir page caplen, a = .packet dir page caplen ∧ s.tracker.find (halfKey page) = none ∧
        t = ⟨s.tracker.add (Tracker.newConn dir page),
          s.packets ++ [⟨page, true, Tracker.newConn dir page, .h1⟩]⟩) ∨
      (∃ dir page caplen half c, a = .packet dir page caplen ∧
        s.tracker.find (halfKey page) = some half ∧ s.tracker.SameHalves t.tracker ∧
        t.tracker.conns[half.1]? = some c ∧ t.packets = s.packets ++ [⟨page, false, c, half.2⟩]) ∨
      (∃ pktseq bytes dlen caplen, a = .rest pktseq bytes dlen caplen ∧
        s.tracker.SameHalves t.tracker ∧ t.packets = s.packets) := by
  cases a with
  | packet dir page caplen =>
    unfold step at h
    by_cases hcont : s.tracker.continuation = true
    · simp [hcont] at h
    · simp only [hcont, Bool.false_eq_true, if_false, Option.bind_eq_bind,
        Option.bind_eq_some_iff] at h
      obtain ⟨⟨u, half⟩, htcp, c, hc, hlast⟩ := h
      cases hlast
      rcases Tracker.tcp_cases htcp with ⟨hfind, rfl, rfl⟩ | ⟨hfind, hsame⟩
      · rw [Tracker.getElem?_add_length, Option.some.injEq] at hc
        subst hc
        exact .inl ⟨dir, page, caplen, rfl, hfind, by rw [hfind]; rfl⟩
      · exact .inr (.inl ⟨dir, page, caplen, half, c, rfl, hfind, hsame, hc, by rw [hfind]; rfl⟩)
  | rest pktseq bytes dlen caplen =>
    unfold step at h
    by_cases hcont : s.tracker.continuation = true
    · simp only [hcont, if_true, Option.map_eq_some_iff] at h
      obtain ⟨u, hflow, rfl⟩ := h
      exact .inr (.inr ⟨pktseq, bytes, dlen, caplen, rfl, Tracker.flowEstabState_same hflow, rfl⟩)
    · simp [hcont] at h

theorem step_begin {dir : Dir} {page : Text} (hcont : s.tracker.continuation = false)
    (hfind : s.tracker.find (halfKey page) = none) (caplen : ℤ) :
    s.step (.packet dir page caplen) = some ⟨s.tracker.add (Tracker.newConn dir page),
      s.packets ++ [⟨page, true, Tracker.newConn dir page, .h1⟩]⟩ := by
  have htcp : s.tracker.tcp dir page caplen =
      some (s.tracker.add (Tracker.newConn dir page), (s.tracker.conns.length, .h1)) := by
    rw [Tracker.tcp, hfind, ← Tracker.createConnection_eq]
  rw [step, hcont, htcp, hfind]
  simp [Tracker.getElem?_add_length]

theorem step_indexed {a : Arrival} (hi : s.tracker.Indexed) (h : s.step a = some t) :
    t.tracker.Indexed := by
  rcases step_cases h with ⟨dir, page, _, -, -, rfl⟩ | ⟨_, _, _, _, _, -, -, hsame, -⟩ |
    ⟨_, _, _, _, -, hsame, -⟩
  · exact Tracker.add_indexed hi (Tracker.newConn_keys dir page).2
  · exact hsame.indexed hi
  · exact hsame.indexed hi

theorem step_extends {a : Arrival} (h : s.step a = some t) :
    s.tracker.Extends t.tracker ∧ s.packets <+: t.packets := by
  rcases step_cases h with ⟨_, _, _, -, -, rfl⟩ | ⟨_, _, _, _, _, -, -, hsame, -, hpackets⟩ |
    ⟨_, _, _, _, -, hsame, hpackets⟩
  · exact ⟨Tracker.add_extends _ _, List.prefix_append _ _⟩
  · exact ⟨hsame.extends, hpackets ▸ List.prefix_append _ _⟩
  · exact ⟨hsame.extends, hpackets ▸ List.prefix_refl _⟩

theorem init_conns (n : ℕ) (c : TrackedConn) : ¬ Tracker.init.conns[n]? = some c := by
  rw [Tracker.init, List.getElem?_nil]
  exact (Option.some_ne_none c).symm

theorem init_indexed : Tracker.init.Indexed where
  refs _ hp := absurd hp List.not_mem_nil
  known n c hc := absurd hc (init_conns n c)
  mirrored n c hc := absurd hc (init_conns n c)

theorem reach_indexed (h : Reach tracking s) : s.tracker.Indexed :=
  h.invariant (I := fun s => s.tracker.Indexed) init_indexed fun _ _ _ hi _ hs => step_indexed hi hs

theorem oriented_iff (hi : s.tracker.Indexed) : s.Oriented ↔ s.tracker.Alone ∧
    (∀ p ∈ s.packets, (p.conn.half p.side).IsSource p.page) ∧
    ∀ p ∈ s.packets, p.created = true → p.Numbered := by
  constructor
  · intro ho
    exact ⟨ho.alone, ho.half, ho.numbers⟩
  · rintro ⟨ha, hhalf, hnumbers⟩
    refine ⟨?_, ?_, ha, hhalf, hnumbers⟩
    · intro c hc
      obtain ⟨n, hn⟩ := List.mem_iff_getElem?.mp hc
      exact hi.mirrored n c hn
    · intro n c hc side
      have hentries := ha n c hc side
      rw [Tracker.find_eq]
      exact congrArg (fun l => l.head?.map Prod.snd) hentries

theorem init_oriented : Tracking.Oriented ⟨.init, []⟩ :=
  (oriented_iff init_indexed).mpr ⟨fun n c hc => absurd hc (init_conns n c),
    fun _ hp => absurd hp List.not_mem_nil, fun _ hp => absurd hp List.not_mem_nil⟩

theorem step_oriented_before {a : Arrival} (hi : s.tracker.Indexed) (h : s.step a = some t)
    (ho : t.Oriented) : s.Oriented := by
  obtain ⟨hext, hpre⟩ := step_extends h
  exact (oriented_iff hi).mpr ⟨hext.alone hi ho.alone, fun p hp => ho.half p (hpre.subset hp),
    fun p hp => ho.numbers p (hpre.subset hp)⟩

theorem ends_differ {dir : Dir} {page : Text} {packets : List Processed}
    (ho : Tracking.Oriented ⟨s.tracker.add (Tracker.newConn dir page), packets⟩) :
    (halfKey page).swapDir ≠ halfKey page := by
  intro heq
  have hself := Tracker.getElem?_add_length s.tracker (Tracker.newConn dir page)
  have hf1 := ho.findable _ _ hself .h1
  have hf2 := ho.findable _ _ hself .h2
  obtain ⟨hk1, hk2⟩ := Tracker.newConn_keys dir page
  have hsame : ((Tracker.newConn dir page).half .h2).key = ((Tracker.newConn dir page).half .h1).key := by
    rcases hk1 with hk1 | hk1
    · rw [TrackedConn.half, TrackedConn.half, hk2, hk1, heq]
    · rw [TrackedConn.half, TrackedConn.half, hk2, hk1, HalfKey.swapDir_swapDir, heq]
  rw [hsame, hf1] at hf2
  cases hf2

/-- A step keeps the orientation exactly if it begins no connection the wrong way round. -/
theorem step_oriented_iff {a : Arrival} (hi : s.tracker.Indexed) (hs : s.Oriented)
    (h : s.step a = some t) : t.Oriented ↔ s.BeginsWell a := by
  have hi' := step_indexed hi h
  rcases step_cases h with ⟨dir, page, caplen, rfl, hfind, rfl⟩ |
    ⟨dir, page, caplen, half, c, rfl, hfind, hsame, hc, hpackets⟩ | ⟨_, _, _, _, rfl, hsame, hpackets⟩
  · constructor
    · intro ho _
      have hnew : (⟨page, true, Tracker.newConn dir page, .h1⟩ : Processed) ∈
          s.packets ++ [⟨page, true, Tracker.newConn dir page, .h1⟩] := by simp
      exact (newConn_orientable dir (ends_differ ho)).mp ⟨ho.half _ hnew, ho.numbers _ hnew rfl⟩
    · intro hok
      have hgood : Orientable dir page := hok hfind
      obtain ⟨hsource, hnum⟩ := (newConn_orientable dir hgood.1).mpr hgood
      refine (oriented_iff hi').mpr ⟨?_, ?_, ?_⟩
      · obtain ⟨hk1, hk2⟩ := Tracker.newConn_keys dir page
        refine Tracker.add_alone hs.alone ?_ ?_ ?_
        · rcases hk1 with hk1 | hk1
          · rw [hk1, hfind]
          · rw [hk1, hi.find_swap hfind]
        · rcases hk1 with hk1 | hk1
          · rw [hk2, hk1, hi.find_swap hfind]
          · rw [hk2, hk1, HalfKey.swapDir_swapDir, hfind]
        · rcases hk1 with hk1 | hk1
          · rw [hk2, hk1]
            exact Ne.symm hgood.1
          · rw [hk2, hk1, HalfKey.swapDir_swapDir]
            exact hgood.1
      · intro p hp
        rcases List.mem_append.mp hp with hp | hp
        · exact hs.half p hp
        · rw [List.mem_singleton.mp hp]
          exact hsource
      · intro p hp hcreated
        rcases List.mem_append.mp hp with hp | hp
        · exact hs.numbers p hp hcreated
        · rw [List.mem_singleton.mp hp]
          exact hnum
  · refine iff_of_true ?_ fun hnone => absurd (hfind.symm.trans hnone) (by simp)
    refine (oriented_iff hi').mpr ⟨hsame.alone hs.alone, ?_, ?_⟩
    · intro p hp
      rw [hpackets] at hp
      rcases List.mem_append.mp hp with hp | hp
      · exact hs.half p hp
      · rw [List.mem_singleton.mp hp]
        have hfind' := (hsame.find (halfKey page)).trans hfind
        obtain ⟨c', hc', hkey⟩ := hi'.keys_of_find hfind'
        rw [hc, Option.some.injEq] at hc'
        subst hc'
        have hsource : (c.half half.2).key = halfKey page := hkey
        exact ⟨by rw [hsource], by rw [hsource]⟩
    · intro p hp hcreated
      rw [hpackets] at hp
      rcases List.mem_append.mp hp with hp | hp
      · exact hs.numbers p hp hcreated
      · rw [List.mem_singleton.mp hp] at hcreated
        cases hcreated
  · refine iff_of_true ?_ trivial
    refine (oriented_iff hi').mpr ⟨hsame.alone hs.alone, ?_, ?_⟩
    · rw [hpackets]
      exact hs.half
    · rw [hpackets]
      exact hs.numbers

end Tracking

/-- The runs in which every connection begins with a packet that is orientable are those that are
oriented in every state. -/
theorem tcp_oriented (s : Tracking) :
    ReachIf tracking Tracking.BeginsWell s ↔ Reach tracking s ∧ s.Oriented := by
  constructor
  · intro h
    have hinv : s.tracker.Indexed ∧ s.Oriented := by
      refine h.invariant (I := fun s => s.tracker.Indexed ∧ s.Oriented) ?_ ?_
      · exact ⟨Tracking.init_indexed, Tracking.init_oriented⟩
      · rintro s a t ⟨hi, hs⟩ hok hstep
        exact ⟨Tracking.step_indexed hi hstep, (Tracking.step_oriented_iff hi hs hstep).mpr hok⟩
    exact ⟨h.reach, hinv.2⟩
  · rintro ⟨hr, ho⟩
    induction hr with
    | init => exact .init
    | next hr _ hs ih =>
      have hi := Tracking.reach_indexed hr
      have hbefore := Tracking.step_oriented_before hi hs ho
      exact .next (ih hbefore) ((Tracking.step_oriented_iff hi hbefore hs).mp ho) hs

/-- An acknowledgement in the middle of a connection, from 10.0.0.2:80 to 10.0.0.1:1024, with the numbers
7 and 9. -/
def ackPage : Text :=
  List.replicate sizeofEthhdr 0 ++
    [0x45, 0, 0, 40, 0, 0, 0, 0, 64, 6, 0, 0, 10, 0, 0, 2, 10, 0, 0, 1] ++
    [0, 80, 4, 0, 0, 0, 0, 7, 0, 0, 0, 9, 0x50, 0x10, 0, 0, 0, 0, 0, 0]

/-- The half that the first packet is given is that of the other end. -/
theorem ack_ingress_not_oriented : ¬ ∀ s, Reach tracking s → s.Oriented := by
  intro h
  have hreach : Reach tracking ⟨Tracker.init.add (Tracker.newConn .ingress ackPage),
      [⟨ackPage, true, Tracker.newConn .ingress ackPage, .h1⟩]⟩ :=
    .next (a := .packet .ingress ackPage 54) .init trivial
      (Tracking.step_begin (s := ⟨.init, []⟩) rfl rfl 54)
  have horiented := h _ hreach
  have hsource := horiented.half _ (List.mem_singleton_self _)
  have hconn : Tracker.newConn .ingress ackPage =
      .new (halfKey ackPage).swapDir (TcpConn.established ⟨.established, .ingress, Conn.init⟩)
        (thSeq ackPage) (thAckSeq ackPage) := by
    have hbits : synAckBits ackPage = (false, true) := rfl
    simp only [Tracker.newConn, hbits, if_true]
  rw [hconn] at hsource
  exact absurd (isSource_swap_iff.mp hsource) (by decide)

end Netp.Parse
