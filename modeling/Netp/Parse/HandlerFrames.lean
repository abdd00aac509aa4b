import Netp.Parse.Handler

/-! # When a frame is one packet

Between two frames `continuation` is off. A frame of one page leaves it off, and a frame of several
pages has it on after every page but the last, if the IP header announces the length the frame has.
-/

namespace Netp.Parse
open Netp.Lib
set_option autoImplicit false

/-- What the connections keep over a page: the known halves are halves of connections. -/
def Handler.Refs (s : Handler) : Prop := ∀ p ∈ s.halfDict, p.2.1 < s.conns.length

namespace Handler
variable {s : Handler}

theorem Refs.conn (h : s.Refs) {key : HalfKey} {half : HalfRef} (hf : s.find key = some half) :
    ∃ c, s.conns[half.1]? = some c := by
  obtain ⟨p, hp, rfl⟩ := Option.map_eq_some_iff.mp hf
  exact ⟨_, List.getElem?_eq_getElem (h p (List.mem_of_find?_eq_some hp))⟩

theorem Refs.insert (h : s.Refs) {key : HalfKey} {half : HalfRef} (hhalf : half.1 < s.conns.length) :
    (s.insert key half).Refs := by
  unfold Handler.insert
  split_ifs
  · exact h
  · intro p hp
    obtain hp | hp := List.mem_append.mp hp
    · exact h p hp
    · rw [List.mem_singleton.mp hp]
      exact hhalf

theorem insert_conns (s : Handler) (key : HalfKey) (half : HalfRef) :
    (s.insert key half).conns = s.conns ∧ (s.insert key half).continuation = s.continuation := by
  unfold Handler.insert
  split_ifs <;> exact ⟨rfl, rfl⟩

theorem add_refs (h : s.Refs) (key : HalfKey) (c : TcpConn) :
    (s.add key c).Refs ∧ (s.add key c).continuation = s.continuation := by
  have hgrow : Refs { s with conns := s.conns ++ [c] } := by
    intro p hp
    have hlt := h p hp
    simp only [List.length_append, List.length_singleton]
    omega
  have hnew : s.conns.length < (s.conns ++ [c]).length := by simp
  have hfirst : Refs (Handler.insert { s with conns := s.conns ++ [c] } key (s.conns.length, .h1)) :=
    hgrow.insert hnew
  obtain ⟨hconns, hcont⟩ := insert_conns { s with conns := s.conns ++ [c] } key (s.conns.length, .h1)
  refine ⟨hfirst.insert ?_, (insert_conns _ _ _).2.trans hcont⟩
  rw [hconns]
  exact hnew

theorem createConnection_refs (h : s.Refs) (dir : Dir) (page : Text) :
    (s.createConnection dir page).Refs ∧
      (s.createConnection dir page).continuation = s.continuation := by
  unfold createConnection
  split <;> exact add_refs h _ _

theorem setConn_refs (h : s.Refs) (n : ℕ) (f : TcpConn → TcpConn) : (s.setConn n f).Refs := by
  intro p hp
  have hlt := h p hp
  rw [setConn, List.length_modify]
  exact hlt

theorem flowSynState_refs (h : s.Refs) (n : ℕ) (c : TcpConn) (dir : Dir) (page : Text) :
    (s.flowSynState n c dir page).Refs ∧
      (s.flowSynState n c dir page).continuation = s.continuation := by
  unfold flowSynState
  split_ifs
  · exact ⟨h, rfl⟩
  · split
    · exact ⟨setConn_refs h _ _, rfl⟩
    · exact ⟨h, rfl⟩

theorem flowSynAckState_refs (h : s.Refs) (n : ℕ) (c : TcpConn) (dir : Dir) (page : Text) :
    (s.flowSynAckState n c dir page).Refs ∧
      (s.flowSynAckState n c dir page).continuation = s.continuation := by
  unfold flowSynAckState
  split_ifs
  · split
    · exact ⟨setConn_refs h _ _, rfl⟩
    · exact ⟨h, rfl⟩
  · exact ⟨h, rfl⟩

theorem flowEstabState_spec (h : s.Refs) (half : HalfRef) (data : Text) (dlen : ℤ) {n : ℕ}
    (continued : Bool) :
    ∃ t, s.flowEstabState half data dlen n continued =
        some (t, ⟨continued, some half, data.take n⟩) ∧ t.Refs ∧
      t.continuation = decide ((n : ℤ) < dlen) ∧ ((n : ℤ) < dlen → t.contHalf = half) := by
  have hneg : ¬ (n : ℤ) < 0 := by omega
  have hrefs := setConn_refs h half.1
    fun c => { c with conn := flowData c.conn half.2 (data.take n) }
  refine ⟨{ s.setConn half.1 fun c => { c with conn := flowData c.conn half.2 (data.take n) } with
      continuation := decide ((n : ℤ) < dlen)
      contHalf := if (n : ℤ) < dlen then half else s.contHalf },
    ?_, hrefs, rfl, fun hlt => if_pos hlt⟩
  simp only [flowEstabState, readBytes, hneg, false_and, if_false]
  rfl

theorem caplen_eq (e : Entry) : e.caplen = min e.len kdataPacketMaxData := by
  rw [Entry.caplen]
  split_ifs <;> omega

theorem take_caplen (inside : Bool) (rest stale : Text) :
    (rest.take kdataPacketMaxData ++ stale).take
        (Entry.caplen ⟨inside, rest.length, rest.take kdataPacketMaxData ++ stale⟩) =
      rest.take kdataPacketMaxData := by
  refine List.take_left' ?_
  rw [List.length_take, caplen_eq]
  exact Nat.min_comm _ _

/-- There is more of the frame exactly if the page does not hold all that is left. -/
theorem caplen_lt_iff (inside : Bool) (rest bytes : Text) :
    Entry.caplen ⟨inside, rest.length, bytes⟩ < rest.length ↔ rest.drop kdataPacketMaxData ≠ [] := by
  rw [ne_eq, List.drop_eq_nil_iff, caplen_eq]
  simp only
  omega

theorem read_cons {s t u : Handler} {e : Entry} {es : List Entry} {x : Treated} {xs : List Treated}
    (h : s.handler e = some (t, x)) (h' : t.read es = some (u, xs)) :
    s.read (e :: es) = some (u, x :: xs) := by
  simp [read, h, h']

theorem read_continued (inside : Bool) (stale : ℕ → Text) (i : ℕ) (rest : Text) :
    ∀ {s : Handler}, s.Refs → s.continuation = decide (rest ≠ []) →
      ∃ t ts, s.read (kdataKwrite inside stale i rest) = some (t, ts) ∧ t.Refs ∧
        t.continuation = false ∧ ts.length = (kdataKwrite inside stale i rest).length ∧
        (∀ x ∈ ts, x.continued = true ∧ x.half = some s.contHalf) ∧
        ts.flatMap Treated.data = rest := by
  fun_induction kdataKwrite inside stale i rest with
  | case1 i =>
    intro s h hc
    exact ⟨s, [], rfl, h, by simpa using hc, rfl, by simp, rfl⟩
  | case2 i rest hne ih =>
    intro s h hc
    have hon : s.continuation = true := by simpa [hne] using hc
    let e : Entry := ⟨inside, rest.length, rest.take kdataPacketMaxData ++ stale i⟩
    obtain ⟨t, hflow, hrefs, hcont, hhalf⟩ :=
      flowEstabState_spec h s.contHalf e.bytes e.len (n := e.caplen) true
    have hstep : s.handler e = some (t, ⟨true, some s.contHalf, rest.take kdataPacketMaxData⟩) := by
      rw [handler, if_pos hon, hflow, take_caplen]
    have hmore : t.continuation = decide (rest.drop kdataPacketMaxData ≠ []) := by
      rw [hcont]
      exact decide_eq_decide.mpr (Nat.cast_lt.trans (caplen_lt_iff inside rest _))
    obtain ⟨u, ts, hread, hu, hoff, hlen, hall, hdata⟩ := ih hrefs hmore
    refine ⟨u, _, read_cons hstep hread, hu, hoff, by simp [hlen], ?_, ?_⟩
    · intro x hx
      obtain rfl | hx := List.mem_cons.mp hx
      · exact ⟨rfl, rfl⟩
      · -- there is a page after this one, so the half is still that of the first
        have hpages : rest.drop kdataPacketMaxData ≠ [] := by
          intro hnil
          rw [hnil, kdataKwrite, if_pos rfl] at hlen
          rw [List.length_eq_zero_iff.mp hlen] at hx
          exact absurd hx List.not_mem_nil
        have hsame := hhalf (Nat.cast_lt.mpr ((caplen_lt_iff inside rest _).mpr hpages))
        rw [← hsame]
        exact hall x hx
    · rw [List.flatMap_cons, hdata]
      exact List.take_append_drop _ _

/-- The first page of a frame that brings no data of an established connection. -/
theorem handler_other {f : Frame} (h : s.Refs) (hoff : s.continuation = false)
    (hest : f.established s = false) (len : ℕ) :
    ∃ t x, s.handler ⟨f.inside, len, f.page⟩ = some (t, x) ∧ t.Refs ∧ t.continuation = false ∧
      x.continued = false ∧ x.half = none := by
  have hdir : ¬ s.continuation = true := by rw [hoff]; exact Bool.false_ne_true
  rw [handler, if_neg hdir]
  simp only
  generalize (if f.inside then Dir.egress else Dir.ingress) = dir
  split_ifs with hip htcp
  · rw [tcp]
    split
    · obtain ⟨hr, hc⟩ := createConnection_refs h _ f.page
      exact ⟨_, _, rfl, hr, hc.trans hoff, rfl, rfl⟩
    · rename_i half hfind
      obtain ⟨c, hconn⟩ := h.conn hfind
      rw [hconn]
      simp only
      have hstate : c.state ≠ .established := by
        intro hstate
        have htrue : f.established s = true := by
          simp [Frame.established, hip, htcp, hfind, hconn, hstate]
        rw [htrue] at hest
        cases hest
      split
      · obtain ⟨hr, hc⟩ := flowSynState_refs h half.1 _ _ f.page
        exact ⟨_, _, rfl, hr, hc.trans hoff, rfl, rfl⟩
      · obtain ⟨hr, hc⟩ := flowSynAckState_refs h half.1 _ _ f.page
        exact ⟨_, _, rfl, hr, hc.trans hoff, rfl, rfl⟩
      · rename_i hstate'
        exact absurd hstate' hstate
  · exact ⟨s, noData, rfl, h, hoff, rfl, rfl⟩
  · exact ⟨s, noData, rfl, h, hoff, rfl, rfl⟩

/-- The first page of a frame with data of an established connection. -/
theorem handler_established {f : Frame} (h : s.Refs) (hoff : s.continuation = false)
    (hest : f.established s = true) {len : ℕ}
    (hfit : dataOff f.page ≤ min len kdataPacketMaxData) :
    ∃ t half, s.handler ⟨f.inside, len, f.page⟩ =
        some (t, ⟨false, some half,
          (f.page.drop (dataOff f.page)).take (min len kdataPacketMaxData - dataOff f.page)⟩) ∧
      t.Refs ∧ t.continuation = decide (min len kdataPacketMaxData < sizeofEthhdr + totLen f.page) ∧
      (min len kdataPacketMaxData < sizeofEthhdr + totLen f.page → t.contHalf = half) := by
  have hdir : ¬ s.continuation = true := by rw [hoff]; exact Bool.false_ne_true
  simp only [Frame.established, Bool.and_eq_true, decide_eq_true_eq] at hest
  obtain ⟨⟨hip, htcp⟩, hhalf⟩ := hest
  split at hhalf
  · cases hhalf
  · rename_i half hfind
    obtain ⟨c, hconn⟩ := h.conn hfind
    rw [hconn] at hhalf
    have hstate : c.state = .established := by simpa using hhalf
    obtain ⟨t, hflow, hr, hc, hh⟩ := flowEstabState_spec h half (f.page.drop (dataOff f.page))
      ((totLen f.page : ℤ) - thlen f.page - ihlen f.page)
      (n := min len kdataPacketMaxData - dataOff f.page) false
    have hoffs : dataOff f.page = sizeofEthhdr + ihlen f.page + thlen f.page := rfl
    have hcap : ((Entry.caplen ⟨f.inside, len, f.page⟩ : ℕ) : ℤ) - thlen f.page - ihlen f.page -
        sizeofEthhdr = ((min len kdataPacketMaxData - dataOff f.page : ℕ) : ℤ) := by
      rw [caplen_eq]
      simp only
      omega
    have hlt : ((min len kdataPacketMaxData - dataOff f.page : ℕ) : ℤ) <
        (totLen f.page : ℤ) - thlen f.page - ihlen f.page ↔
          min len kdataPacketMaxData < sizeofEthhdr + totLen f.page := by
      omega
    refine ⟨t, half, ?_, hr, ?_, fun hlong => hh (hlt.mpr hlong)⟩
    · rw [handler, if_neg hdir]
      simp only
      rw [if_pos hip, if_pos htcp, tcp, hfind]
      simp only [hconn, hstate]
      rw [hcap, hflow]
    · rw [hc]
      exact decide_eq_decide.mpr hlt

/-- What a handler keeps between two frames. -/
structure Idle (s : Handler) : Prop where
  refs : s.Refs
  off : s.continuation = false

end Handler

namespace Frame
open Handler
variable {s : Handler} {f : Frame}

theorem entries_cons (hne : f.bytes ≠ []) :
    f.entries = ⟨f.inside, f.bytes.length, f.page⟩ ::
      kdataKwrite f.inside f.stale 1 (f.bytes.drop kdataPacketMaxData) := by
  rw [entries, kdataKwrite, if_neg hne]
  rfl

theorem entries_two (hgt : kdataPacketMaxData < f.bytes.length)
    (hle : f.bytes.length ≤ 2 * kdataPacketMaxData) :
    f.entries = [⟨f.inside, f.bytes.length, f.page⟩,
      ⟨f.inside, f.bytes.length - kdataPacketMaxData,
        f.bytes.drop kdataPacketMaxData ++ f.stale 1⟩] := by
  have hlen : (f.bytes.drop kdataPacketMaxData).length = f.bytes.length - kdataPacketMaxData :=
    List.length_drop
  have hne : f.bytes.drop kdataPacketMaxData ≠ [] := List.ne_nil_of_length_pos (by omega)
  have hnil : (f.bytes.drop kdataPacketMaxData).drop kdataPacketMaxData = [] :=
    List.drop_eq_nil_of_le (by omega)
  have hall : (f.bytes.drop kdataPacketMaxData).take kdataPacketMaxData =
      f.bytes.drop kdataPacketMaxData := List.take_of_length_le (by omega)
  rw [entries_cons (List.ne_nil_of_length_pos (by omega)), kdataKwrite, if_neg hne, hnil, hall, hlen,
    kdataKwrite, if_pos rfl]

theorem page_payload (hfit : dataOff f.page ≤ min f.bytes.length kdataPacketMaxData) :
    (f.page.drop (dataOff f.page)).take (min f.bytes.length kdataPacketMaxData - dataOff f.page) =
      (f.bytes.take kdataPacketMaxData).drop (dataOff f.page) := by
  have hlen : (f.bytes.take kdataPacketMaxData).length = min f.bytes.length kdataPacketMaxData := by
    rw [List.length_take, Nat.min_comm]
  have hpage : f.page = f.bytes.take kdataPacketMaxData ++ f.stale 0 := rfl
  generalize dataOff f.page = off at hfit ⊢
  rw [hpage, List.drop_append_of_le_length (hlen ▸ hfit)]
  refine List.take_left' ?_
  rw [List.length_drop, hlen]

theorem read_other (h : s.Idle) (hne : f.bytes ≠ []) (hest : f.established s = false)
    (hshort : f.bytes.length ≤ kdataPacketMaxData) :
    ∃ t ts, s.read f.entries = some (t, ts) ∧ t.Idle ∧ f.OnePacket ts := by
  obtain ⟨t, x, hstep, hrefs, hoff, hcont, hhalf⟩ := handler_other h.refs h.off hest f.bytes.length
  have hentries : f.entries = [⟨f.inside, f.bytes.length, f.page⟩] := by
    rw [entries_cons hne, List.drop_eq_nil_of_le hshort, kdataKwrite, if_pos rfl]
  rw [hentries]
  refine ⟨t, [x], read_cons hstep rfl, ⟨hrefs, hoff⟩, ?_, ?_, ?_, ?_⟩
  · rw [hentries]
    rfl
  · intro y hy
    rw [← Option.some.inj hy]
    exact hcont
  · intro y hy
    exact absurd hy List.not_mem_nil
  · intro hsome
    simp [hhalf] at hsome

/-- A frame of an established connection, whose IP length says whether there is more than one page. -/
theorem read_established (h : s.Idle) (hne : f.bytes ≠ []) (hest : f.established s = true)
    (hfit : dataOff f.page ≤ min f.bytes.length kdataPacketMaxData)
    (hlong : kdataPacketMaxData < f.bytes.length ↔
      min f.bytes.length kdataPacketMaxData < sizeofEthhdr + totLen f.page) :
    ∃ t ts, s.read f.entries = some (t, ts) ∧ t.Idle ∧ f.OnePacket ts := by
  obtain ⟨t, half, hstep, hrefs, hcont, hsame⟩ := handler_established h.refs h.off hest hfit
  rw [page_payload hfit] at hstep
  have hmore : t.continuation = decide (f.bytes.drop kdataPacketMaxData ≠ []) := by
    rw [hcont]
    refine decide_eq_decide.mpr (hlong.symm.trans ?_)
    rw [ne_eq, List.drop_eq_nil_iff, Nat.not_le]
  obtain ⟨u, ts, hread, hu, hoff, hlen, hall, hdata⟩ :=
    read_continued f.inside f.stale 1 (f.bytes.drop kdataPacketMaxData) hrefs hmore
  have hentries := entries_cons hne
  refine ⟨u, _, hentries ▸ read_cons hstep hread, ⟨hu, hoff⟩, ?_, ?_, ?_, ?_⟩
  · rw [hentries, List.length_cons, List.length_cons, hlen]
  · intro y hy
    rw [← Option.some.inj hy]
  · intro y hy
    obtain ⟨hyc, hyh⟩ := hall y hy
    have hpages : f.bytes.drop kdataPacketMaxData ≠ [] := by
      intro hnil
      rw [hnil, kdataKwrite, if_pos rfl] at hlen
      rw [List.tail_cons, List.length_eq_zero_iff.mp hlen] at hy
      exact absurd hy List.not_mem_nil
    have hlt : kdataPacketMaxData < f.bytes.length := by
      rw [ne_eq, List.drop_eq_nil_iff, Nat.not_le] at hpages
      exact hpages
    rw [hsame (hlong.mp hlt)] at hyh
    exact ⟨hyc, by rw [hyh]; rfl, hyh⟩
  · intro _
    have hwithin : dataOff f.page ≤ (f.bytes.take kdataPacketMaxData).length := by
      rw [List.length_take, Nat.min_comm]
      exact hfit
    calc (_ :: ts).flatMap Treated.data
        = (f.bytes.take kdataPacketMaxData).drop (dataOff f.page) ++
            f.bytes.drop kdataPacketMaxData := by rw [List.flatMap_cons, hdata]
      _ = (f.bytes.take kdataPacketMaxData ++ f.bytes.drop kdataPacketMaxData).drop
            (dataOff f.page) := (List.drop_append_of_le_length hwithin).symm
      _ = f.bytes.drop (dataOff f.page) := by rw [List.take_append_drop]

/-- The step lemma: a frame that is announced is one packet. -/
theorem read_onePacket (h : s.Idle) (hann : f.Announced s) :
    ∃ t ts, s.read f.entries = some (t, ts) ∧ t.Idle ∧ f.OnePacket ts := by
  by_cases hne : f.bytes = []
  · have hentries : f.entries = [] := by rw [entries, kdataKwrite, if_pos hne]
    rw [hentries]
    refine ⟨s, [], rfl, h, ?_, ?_, ?_, ?_⟩
    · rw [hentries]
      rfl
    · intro y hy
      cases hy
    · intro y hy
      exact absurd hy List.not_mem_nil
    · intro hsome
      cases hsome
  · obtain ⟨hfit, hlong⟩ := hann hne
    cases hest : f.established s
    · refine read_other h hne hest ?_
      by_contra hgt
      have htrue := (hlong.mp (Nat.not_le.mp hgt)).1
      rw [hest] at htrue
      cases htrue
    · exact read_established h hne hest (hfit hest) (hlong.trans (and_iff_right hest))

end Frame

/-- Between the frames of a run the handler is idle, and every frame so far was one packet. -/
structure Sniffer.Inv (s : Sniffer) : Prop where
  idle : s.handler.Idle
  frames : ∀ p ∈ s.frames, p.1.OnePacket p.2

theorem Sniffer.Inv.step {s : Sniffer} {f : Frame} (h : s.Inv) (hann : f.Announced s.handler) :
    ∃ s', sniffKring.step s f = some s' ∧ s'.Inv := by
  obtain ⟨t, ts, hread, hidle, hone⟩ := Frame.read_onePacket h.idle hann
  refine ⟨⟨t, s.frames ++ [(f, ts)]⟩, ?_, hidle, ?_⟩
  · show (s.handler.read f.entries).map _ = _
    rw [hread]
    rfl
  · intro p hp
    obtain hp | hp := List.mem_append.mp hp
    · exact h.frames p hp
    · rw [List.mem_singleton.mp hp]
      exact hone

theorem sniffKring_inv {s : Sniffer} (h : ReachIf sniffKring (fun s f => f.Announced s.handler) s) :
    s.Inv := by
  have hinit : sniffKring.init.Inv :=
    ⟨⟨fun p hp => absurd hp List.not_mem_nil, rfl⟩, fun p hp => absurd hp List.not_mem_nil⟩
  refine ReachIf.invariant hinit ?_ h
  intro s f s' hinv hann hstep
  obtain ⟨t, ht, htinv⟩ := hinv.step hann
  rw [hstep] at ht
  exact Option.some.inj ht ▸ htinv

/-- In a run over frames that are announced, every frame is one packet; and the handler gets through
every frame that is. -/
theorem frames_whole {s : Sniffer} (h : ReachIf sniffKring (fun s f => f.Announced s.handler) s) :
    (∀ p ∈ s.frames, p.1.OnePacket p.2) ∧
      ∀ f : Frame, f.Announced s.handler → ∃ s', sniffKring.step s f = some s' := by
  have hinv := sniffKring_inv h
  refine ⟨hinv.frames, ?_⟩
  intro f hann
  obtain ⟨s', hs', -⟩ := hinv.step hann
  exact ⟨s', hs'⟩

/-- A frame from port 80 of 10.0.0.1 with the acknowledgement bit. -/
def ackFrame (hi lo : UInt8) (payload : Text) : Frame where
  inside := true
  bytes := List.replicate 12 0 ++ [8, 0] ++
    [0x45, 0, hi, lo, 0, 0, 0, 0, 64, 6, 0, 0, 10, 0, 0, 1, 10, 0, 0, 2] ++
    [0, 80, 0x30, 0x39, 0, 0, 0, 1, 0, 0, 0, 1, 0x50, 0x10, 0, 0, 0, 0, 0, 0] ++ payload
  stale := fun _ => []

theorem ackFrame_length (hi lo : UInt8) (payload : Text) :
    (ackFrame hi lo payload).bytes.length = 54 + payload.length := by
  simp only [ackFrame, List.length_append, List.length_replicate]
  rfl

/-- Such a frame of 5000 bytes. -/
def longFrame : Frame := ackFrame 0x13 0x7a (List.replicate 4946 0)

theorem longFrame_length : longFrame.bytes.length = 5000 := by
  rw [longFrame, ackFrame_length, List.length_replicate]

/-- The handler after the first page of a frame that opens a connection. -/
def ackHandler (f : Frame) : Handler := Handler.init.createConnection .egress f.page

/-- Two pages of a connection that the frame before them has opened. -/
theorem frames_whole_long :
    ∃ s, ReachIf sniffKring (fun s f => f.Announced s.handler) s ∧
      s.frames.head?.map Prod.fst = some (ackFrame 0 40 []) ∧
      (∀ p ∈ s.frames, p.1.OnePacket p.2) ∧
      ∃ s', sniffKring.step s longFrame = some s' ∧
        ∀ p ∈ s'.frames, p.1.OnePacket p.2 := by
  have hentries : (ackFrame 0 40 []).entries =
      [⟨true, 54, (ackFrame 0 40 []).page⟩] := by
    rw [Frame.entries_cons (by decide)]
    rw [List.drop_eq_nil_of_le (by decide), kdataKwrite, if_pos rfl]
    rfl
  have hann : (ackFrame 0 40 []).Announced Handler.init := by
    intro _
    exact ⟨by decide, by decide⟩
  have hstep : sniffKring.step sniffKring.init (ackFrame 0 40 []) =
      some ⟨ackHandler (ackFrame 0 40 []), [(ackFrame 0 40 [], [Handler.noData])]⟩ := by
    show (Handler.init.read _).map _ = _
    rw [hentries]
    rfl
  have hann' : longFrame.Announced (ackHandler (ackFrame 0 40 [])) := by
    intro _
    rw [longFrame_length]
    exact ⟨by decide, by decide⟩
  have hreach : ReachIf sniffKring (fun s f => f.Announced s.handler)
      ⟨ackHandler (ackFrame 0 40 []), [(ackFrame 0 40 [], [Handler.noData])]⟩ := .next .init hann hstep
  obtain ⟨s', hs'⟩ := (frames_whole hreach).2 _ hann'
  exact ⟨_, hreach, rfl, (frames_whole hreach).1, s', hs',
    (frames_whole (.next hreach hann' hs')).1⟩

/-- The second page of the same frame, where no connection is open yet, is read as a frame of its own. -/
theorem frames_split :
    ¬ ∀ s, Reach sniffKring s → ∀ p ∈ s.frames, p.1.OnePacket p.2 := by
  intro hclaim
  have hentries : longFrame.entries = [⟨true, 5000, longFrame.page⟩,
      ⟨true, 5000 - kdataPacketMaxData, longFrame.bytes.drop kdataPacketMaxData ++ longFrame.stale 1⟩] := by
    rw [Frame.entries_two (by rw [longFrame_length]; decide) (by rw [longFrame_length]; decide),
      longFrame_length]
    rfl
  have hfirst : Handler.init.handler ⟨true, 5000, longFrame.page⟩ =
      some (ackHandler longFrame, Handler.noData) := by
    have hip : isIp longFrame.page = true := by decide
    have htcp : protocol longFrame.page = 6 := rfl
    rw [Handler.handler]
    simp only [hip, htcp, if_true]
    rfl
  have hother : isIp (longFrame.bytes.drop kdataPacketMaxData ++
      longFrame.stale 1) = false := by
    decide +kernel
  have hsecond : (ackHandler longFrame).handler
      ⟨true, 5000 - kdataPacketMaxData,
        longFrame.bytes.drop kdataPacketMaxData ++
          longFrame.stale 1⟩ =
      some (ackHandler longFrame, Handler.noData) := by
    have hoff : (ackHandler longFrame).continuation = false :=
      (Handler.createConnection_refs (fun _ hp => absurd hp List.not_mem_nil) _ _).2
    rw [Handler.handler, hoff]
    simp only [hother]
    rfl
  have hstep : sniffKring.step sniffKring.init longFrame =
      some ⟨ackHandler longFrame,
        [(longFrame, [Handler.noData, Handler.noData])]⟩ := by
    show (Handler.init.read _).map _ = _
    rw [hentries, Handler.read_cons hfirst (Handler.read_cons hsecond rfl)]
    rfl
  have hone := hclaim _ (.next .init trivial hstep) _ (List.mem_singleton_self _)
  have hcont := (hone.rest Handler.noData (List.mem_singleton_self _)).1
  cases hcont

end Netp.Parse
