import Netp.Genf.ItqMem

/-! # The invariant of the queue

The queue runs through the headers of the messages that were sent and not yet returned by `wait`;
every message that is not released lies in the blocks of its writer, behind those released. With at
most 2^16 writers the header tells the writer.
-/

namespace Netp.Genf.Itq
open Netp.Lib
set_option autoImplicit false

/-- The messages sent that the reader has not released. -/
def unreleased (s : World) : List Msg := s.sent.drop s.released

/-- Those of writer `w`. -/
def pend (s : World) (w : ℕ) : List Msg := (unreleased s).filter fun m => m.writer = w

def openPieces (s : World) (w : ℕ) : List Piece := (s.opened w).elim [] Msg.pieces

def openLen (s : World) (w : ℕ) : ℕ := (s.opened w).elim 0 fun _ => (s.q.writerVect w).mlen

/-- The headers of the messages in the queue. -/
def queued (s : World) : List Addr := (s.sent.drop s.waited.length).map Msg.hdr

structure Inv (s : World) : Prop where
  mem : MemInv s.q (pend s) (openPieces s) (openLen s)
  ids : ∀ w, w < s.q.size → (s.q.writerVect w).id = w
  few : s.q.size ≤ 2 ^ 16
  opened : ∀ w m, s.opened w = some m → w < s.q.size ∧ m.writer = w ∧
    (s.q.writerVect w).toSend = some m.hdr ∧ (s.q.hdrs m.hdr).writerId = w
  live : ∀ m ∈ unreleased s, m.writer < s.q.size ∧ (s.q.hdrs m.hdr).writerId = m.writer ∧
    (s.q.hdrs m.hdr).length = m.len
  nodup : ((unreleased s).map Msg.hdr).Nodup
  apart : ∀ w m, s.opened w = some m → m.hdr ∉ (unreleased s).map Msg.hdr
  queue : Seg some (fun a => (s.q.hdrs a).next) s.q.head (queued s) none
  tail : ∀ a, (queued s).getLast? = some a → s.q.tail = some a
  waited : s.waited = (s.sent.map Msg.hdr).take s.waited.length
  cur : s.cur = none ∧ s.waited.length = s.released ∨
    ∃ m, s.cur = some m.hdr ∧ s.sent[s.released]? = some m ∧ s.waited.length = s.released + 1

section Facts
variable {s : World}

theorem mem_pend {w : ℕ} {m : Msg} : m ∈ pend s w ↔ m ∈ unreleased s ∧ m.writer = w := by
  simp [pend]

theorem hdr_mem (m : Msg) : (⟨m.hdr.1, m.hdr.2, sizeofItHeader⟩ : Piece) ∈ m.pieces :=
  List.mem_cons_self

theorem pend_piece_mem {m : Msg} {p : Piece} (hm : m ∈ unreleased s) (hp : p ∈ m.pieces) :
    p ∈ (pend s m.writer).flatMap Msg.pieces ++ openPieces s m.writer :=
  List.mem_append_left _ (List.mem_flatMap.2 ⟨m, mem_pend.2 ⟨hm, rfl⟩, hp⟩)

theorem open_piece_mem {w : ℕ} {m : Msg} {p : Piece} (hm : s.opened w = some m)
    (hp : p ∈ m.pieces) : p ∈ (pend s w).flatMap Msg.pieces ++ openPieces s w := by
  apply List.mem_append_right
  unfold openPieces
  rw [hm]
  exact hp

theorem header_fresh {a : Addr}
    (ha : ∀ v, ∀ p ∈ (pend s v).flatMap Msg.pieces ++ openPieces s v, 0 < p.len →
      (p.blk, p.off) ≠ a) :
    a ∉ (unreleased s).map Msg.hdr ∧ ∀ v m, s.opened v = some m → m.hdr ≠ a := by
  refine ⟨?_, ?_⟩
  · intro hmem
    obtain ⟨m, hm, he⟩ := List.mem_map.1 hmem
    exact ha _ _ (pend_piece_mem hm (hdr_mem m)) (Nat.zero_lt_succ 15) he
  · intro v m hm he
    exact ha v _ (open_piece_mem hm (hdr_mem m)) (Nat.zero_lt_succ 15) he

/-- Messages that different writers have open have different headers. -/
theorem Inv.opened_ne (h : Inv s) {v w : ℕ} {m m' : Msg} (hv : s.opened v = some m)
    (hw : s.opened w = some m') (hne : v ≠ w) : m.hdr ≠ m'.hdr := by
  intro he
  obtain ⟨b, hb, hbn⟩ := List.mem_map.1
    ((h.mem.writers v).blk_mem _ (open_piece_mem hv (hdr_mem m)))
  obtain ⟨c, hc, hcn⟩ := List.mem_map.1
    ((h.mem.writers w).blk_mem _ (open_piece_mem hw (hdr_mem m')))
  apply hne
  apply h.mem.names.apart v w b c hb hc
  rw [hbn, hcn]
  exact congrArg Prod.fst he

theorem Inv.waited_le (h : Inv s) : s.waited.length ≤ s.sent.length := by
  have := congrArg List.length h.waited
  rw [List.length_take, List.length_map] at this
  omega

theorem Inv.released_le (h : Inv s) : s.released ≤ s.waited.length := by
  rcases h.cur with ⟨-, hc⟩ | ⟨-, -, -, hc⟩
  · omega
  · omega

theorem Inv.queued_suffix (h : Inv s) : queued s <:+ (unreleased s).map Msg.hdr := by
  unfold queued unreleased
  have hle := h.released_le
  obtain ⟨k, hk⟩ := Nat.exists_eq_add_of_le hle
  rw [hk, ← List.drop_drop]
  exact (List.drop_suffix _ _).map _

theorem inv_init : Inv init := by
  refine
    { mem := ⟨fun w => .empty rfl rfl rfl rfl, ?_⟩, ids := ?_, few := ?_, opened := ?_, live := ?_,
      nodup := List.nodup_nil, apart := ?_, queue := rfl, tail := ?_, waited := rfl,
      cur := .inl ⟨rfl, rfl⟩ }
  · refine ⟨?_, fun w => List.nodup_nil, ?_, ?_⟩
    · intro w b hb
      cases hb
    · intro w w' b b' hb
      cases hb
    · intro f hf
      cases hf
  · intro w hw
    cases hw
  · exact Nat.zero_le _
  · intro w m hm
    cases hm
  · intro m hm
    cases hm
  · intro w m hm
    cases hm
  · intro a ha
    cases ha

end Facts

/-! ## Writers -/

section Steps
variable {s s' : World}

theorem inv_register (h : Inv s) (hsize : s.q.size < 2 ^ 16)
    (hs : step s .register = some s') : Inv s' := by
  simp only [step, Option.some.injEq] at hs
  subst hs
  have hpend : pend s s.q.size = [] := by
    rw [List.eq_nil_iff_forall_not_mem]
    intro m hm
    have := (h.live m (mem_pend.1 hm).1).1
    rw [(mem_pend.1 hm).2] at this
    omega
  have hopen : s.opened s.q.size = none := by
    cases ho : s.opened s.q.size with
    | none => rfl
    | some m =>
      have := (h.opened _ m ho).1
      omega
  have hother : ∀ v, v ≠ s.q.size → s.q.registerWriter.writerVect v = s.q.writerVect v :=
    fun v hv => Function.update_of_ne hv _ _
  have hself : s.q.registerWriter.writerVect s.q.size = .new s.q.size :=
    Function.update_self _ _ _
  refine
    { mem := ⟨?_, ?_⟩, ids := ?_, few := hsize, opened := ?_, live := ?_, nodup := h.nodup,
      apart := h.apart, queue := h.queue, tail := h.tail, waited := h.waited, cur := h.cur }
  · intro w
    by_cases hw : w = s.q.size
    · subst hw
      refine .empty (by rw [hself]; rfl) hpend ?_ ?_
      · unfold openPieces
        rw [hopen]
        rfl
      · unfold openLen
        rw [hopen]
        rfl
    · have := h.mem.writers w
      simp only
      rw [hother w hw]
      unfold openLen
      simp only
      rw [hother w hw]
      exact this
  · refine h.mem.names.change (w := s.q.size) (fun v hv => by rw [hother v hv]) (Nat.le_refl _)
      ?_ ?_ (fun f hf => .inl hf) ?_
    · intro b hb
      rw [hself] at hb
      cases hb
    · rw [hself]
      exact List.nodup_nil
    · intro b hb
      rw [hself] at hb
      cases hb
  · intro w hw
    by_cases he : w = s.q.size
    · subst he
      simp only
      rw [hself]
      rfl
    · have hlt : w < s.q.size := by
        have : w < s.q.size + 1 := hw
        omega
      simp only
      rw [hother w he]
      exact h.ids w hlt
  · intro w m hm
    obtain ⟨h1, h2, h3, h4⟩ := h.opened w m hm
    refine ⟨Nat.lt_succ_of_lt h1, h2, ?_, h4⟩
    simp only
    rw [hother w (by omega)]
    exact h3
  · intro m hm
    obtain ⟨h1, h2⟩ := h.live m hm
    exact ⟨Nat.lt_succ_of_lt h1, h2⟩

theorem inv_alloc (h : Inv s) {w size : ℕ} (hs : step s (.alloc w size) = some s') : Inv s' := by
  simp only [step, Option.bind_eq_bind, Option.bind_eq_some_iff, Option.some.injEq] at hs
  obtain ⟨m, hm, ⟨q, a⟩, ha, rfl⟩ := hs
  have hn : openLen s w = (s.q.writerVect w).mlen := by
    unfold openLen
    rw [hm]
    rfl
  have hmem := h.mem.alloc hn ha
  have hsame := allocBytes_sameBut ha
  have hhdrs := allocBytes_hdrs ha
  have hsend : (q.writerVect w).toSend = (s.q.writerVect w).toSend := by
    rw [allocBytes_writer ha]
    exact writer_allocBytes_toSend
  have hopened : ∀ v m', Function.update s.opened w
      (some { m with rest := m.rest ++ [⟨a.1, a.2, size⟩] }) v = some m' →
      ∃ m'', s.opened v = some m'' ∧ m'.hdr = m''.hdr ∧ m'.writer = m''.writer := by
    intro v m' hm'
    by_cases hv : v = w
    · subst hv
      rw [Function.update_self] at hm'
      cases hm'
      exact ⟨m, hm, rfl, rfl⟩
    · rw [Function.update_of_ne hv] at hm'
      exact ⟨m', hm', rfl, rfl⟩
  refine
    { mem := ?_, ids := ?_, few := ?_, opened := ?_, live := ?_, nodup := h.nodup,
      apart := ?_, queue := ?_, tail := ?_, waited := h.waited, cur := h.cur }
  · have hps : openPieces { s with
        q := q
        opened := Function.update s.opened w
          (some { m with rest := m.rest ++ [⟨a.1, a.2, size⟩] }) } =
        Function.update (openPieces s) w (openPieces s w ++ [⟨a.1, a.2, size⟩]) := by
      funext v
      unfold openPieces
      by_cases hv : v = w
      · subst hv
        simp only [Function.update_self, hm]
        rfl
      · simp only [Function.update_of_ne hv]
    have hl : openLen { s with
        q := q
        opened := Function.update s.opened w
          (some { m with rest := m.rest ++ [⟨a.1, a.2, size⟩] }) } =
        Function.update (openLen s) w (q.writerVect w).mlen := by
      funext v
      unfold openLen
      by_cases hv : v = w
      · subst hv
        simp only [Function.update_self]
        rfl
      · simp only [Function.update_of_ne hv, hsame.others v hv]
    rw [hps, hl]
    exact hmem
  · intro v hv
    simp only at hv ⊢
    rw [hsame.size] at hv
    by_cases hvw : v = w
    · subst hvw
      rw [hsame.id]
      exact h.ids v hv
    · rw [hsame.others v hvw]
      exact h.ids v hv
  · simp only
    rw [hsame.size]
    exact h.few
  · intro v m' hm'
    obtain ⟨m'', hm'', he, hw'⟩ := hopened v m' hm'
    obtain ⟨h1, h2, h3, h4⟩ := h.opened v m'' hm''
    refine ⟨by simp only; rw [hsame.size]; exact h1, hw'.trans h2, ?_, ?_⟩
    · rw [he]
      by_cases hvw : v = w
      · subst hvw
        exact hsend.trans h3
      · simp only
        rw [hsame.others v hvw]
        exact h3
    · simp only
      rw [he, hhdrs]
      exact h4
  · intro m' hm'
    simp only
    rw [hsame.size, hhdrs]
    exact h.live m' hm'
  · intro v m' hm'
    obtain ⟨m'', hm'', he, -⟩ := hopened v m' hm'
    rw [he]
    exact h.apart v m'' hm''
  · simp only
    rw [hhdrs, hsame.head]
    exact h.queue
  · intro x hx
    simp only
    rw [hsame.tail]
    exact h.tail x hx

theorem inv_open (h : Inv s) {w ID SZ : ℕ} (hs : step s (.openMsg w ID SZ) = some s') : Inv s' := by
  simp only [step, Option.ite_none_right_eq_some, Option.bind_eq_bind, Option.bind_eq_some_iff,
    Option.some.injEq] at hs
  obtain ⟨⟨hw, hnone⟩, ⟨q, msg⟩, ho, hdr, hsend, rfl⟩ := hs
  have hps : openPieces s w = [] := by
    unfold openPieces
    rw [hnone]
    rfl
  have hn : openLen s w = 0 := by
    unfold openLen
    rw [hnone]
    rfl
  obtain ⟨header, hsend', hmem, hsame, hhdrs, hapart⟩ := h.mem.itqOpen hps hn ho
  have he : hdr = header := Option.some.inj (hsend.symm.trans hsend')
  subst he
  obtain ⟨hfresh, hfresh'⟩ := header_fresh hapart
  -- the headers of other messages are as they were
  have hold : ∀ a, a ≠ hdr → q.hdrs a = s.q.hdrs a := by
    intro a ha
    rw [hhdrs, Function.update_of_ne ha]
  have hnew : (q.hdrs hdr).writerId = w := by
    rw [hhdrs, Function.update_self]
    simp only
    rw [h.ids w hw]
    exact Nat.mod_eq_of_lt (Nat.lt_of_lt_of_le hw h.few)
  have hlive : ∀ m ∈ unreleased s, m.hdr ≠ hdr := by
    intro m hm he
    apply hfresh
    rw [← he]
    exact List.mem_map_of_mem hm
  have hopened : ∀ v m', v ≠ w →
      Function.update s.opened w (some ⟨w, hdr, msg, SZ, [], 0⟩) v = some m' →
      s.opened v = some m' := by
    intro v m' hv hm'
    rwa [Function.update_of_ne hv] at hm'
  refine
    { mem := ?_, ids := ?_, few := ?_, opened := ?_, live := ?_, nodup := h.nodup,
      apart := ?_, queue := ?_, tail := ?_, waited := h.waited, cur := h.cur }
  · have hps' : openPieces { s with
        q := q, opened := Function.update s.opened w (some ⟨w, hdr, msg, SZ, [], 0⟩) } =
        Function.update (openPieces s) w
          [⟨hdr.1, hdr.2, sizeofItHeader⟩, ⟨msg.1, msg.2, SZ⟩] := by
      funext v
      unfold openPieces
      by_cases hv : v = w
      · subst hv
        simp only [Function.update_self]
        rfl
      · simp only [Function.update_of_ne hv]
    have hl : openLen { s with
        q := q, opened := Function.update s.opened w (some ⟨w, hdr, msg, SZ, [], 0⟩) } =
        Function.update (openLen s) w (q.writerVect w).mlen := by
      funext v
      unfold openLen
      by_cases hv : v = w
      · subst hv
        simp only [Function.update_self]
        rfl
      · simp only [Function.update_of_ne hv, hsame.others v hv]
    rw [hps', hl]
    exact hmem
  · intro v hv
    simp only at hv ⊢
    rw [hsame.size] at hv
    by_cases hvw : v = w
    · subst hvw
      rw [hsame.id]
      exact h.ids v hv
    · rw [hsame.others v hvw]
      exact h.ids v hv
  · simp only
    rw [hsame.size]
    exact h.few
  · intro v m' hm'
    by_cases hv : v = w
    · subst hv
      simp only [Function.update_self, Option.some.injEq] at hm'
      subst hm'
      exact ⟨by simp only; rw [hsame.size]; exact hw, rfl, hsend, hnew⟩
    · have hm'' := hopened v m' hv hm'
      obtain ⟨h1, h2, h3, h4⟩ := h.opened v m' hm''
      refine ⟨by simp only; rw [hsame.size]; exact h1, h2, ?_, ?_⟩
      · simp only
        rw [hsame.others v hv]
        exact h3
      · simp only
        rw [hold _ (hfresh' v m' hm'')]
        exact h4
  · intro m hm
    obtain ⟨h1, h2, h3⟩ := h.live m hm
    simp only
    rw [hsame.size, hold _ (hlive m hm)]
    exact ⟨h1, h2, h3⟩
  · intro v m' hm'
    by_cases hv : v = w
    · subst hv
      simp only [Function.update_self, Option.some.injEq] at hm'
      subst hm'
      exact hfresh
    · exact h.apart v m' (hopened v m' hv hm')
  · simp only
    rw [hsame.head]
    refine h.queue.congr fun a ha => ?_
    have hne : a ≠ hdr := by
      rintro rfl
      exact hfresh (h.queued_suffix.subset ha)
    rw [hold a hne]
  · intro x hx
    simp only
    rw [hsame.tail]
    exact h.tail x hx

/-! ## The queue -/

theorem send_spec {q : ItQueue} {w : ℕ} {msg : Addr} {l : List Addr}
    (hsend : (q.writerVect w).toSend = some msg)
    (hq : Seg some (fun a => (q.hdrs a).next) q.head l none)
    (htail : ∀ a, l.getLast? = some a → q.tail = some a) (hnodup : l.Nodup) (hmsg : msg ∉ l) :
    ∃ q', q.send w = some q' ∧ Seg some (fun a => (q'.hdrs a).next) q'.head (l ++ [msg]) none ∧
      q'.tail = some msg ∧ q'.size = q.size ∧ q'.writerVect = q.writerVect ∧
      q'.fresh = q.fresh ∧ q'.freed = q.freed ∧
      (∀ a, (q'.hdrs a).writerId = (q.hdrs a).writerId) ∧
      (q'.hdrs msg).length = (q.writerVect w).mlen ∧
      ∀ a, a ≠ msg → (q'.hdrs a).length = (q.hdrs a).length := by
  unfold ItQueue.send
  rw [hsend]
  simp only [Option.bind_eq_bind, Option.bind_some]
  rcases List.eq_nil_or_concat l with rfl | ⟨l', t, rfl⟩
  · have hhead : q.head = none := hq
    simp only [ItQueue.setHeader, hhead, if_true]
    refine ⟨_, rfl, ?_, rfl, rfl, rfl, rfl, rfl, ?_, ?_, ?_⟩
    · simp
    · intro a
      by_cases ha : a = msg
      · subst ha
        simp
      · simp [Function.update_of_ne ha]
    · simp
    · intro a ha
      simp [Function.update_of_ne ha]
  · rw [List.concat_eq_append] at *
    have ht := htail t (by simp)
    have hne : q.head ≠ none := by
      intro hn
      rw [hn] at hq
      cases l' with
      | nil => cases hq.1
      | cons => cases hq.1
    have htm : t ≠ msg := by
      rintro rfl
      exact hmsg (by simp)
    simp only [ItQueue.setHeader, hne, if_false, ht, Option.bind_some]
    refine ⟨_, rfl, ?_, rfl, rfl, rfl, rfl, rfl, ?_, ?_, ?_⟩
    · rw [seg_snoc, seg_snoc]
      rw [seg_snoc] at hq
      refine ⟨⟨?_, ?_⟩, ?_⟩
      · refine hq.1.congr fun a ha => ?_
        have h1 : a ≠ msg := by
          rintro rfl
          exact hmsg (by simp [ha])
        have h2 : a ≠ t := by
          rintro rfl
          rw [List.nodup_append] at hnodup
          exact hnodup.2.2 a ha a (by simp) rfl
        simp [Function.update_of_ne h1, Function.update_of_ne h2]
      · simp [Function.update_of_ne htm]
      · simp
    · intro a
      by_cases ha : a = msg
      · subst ha
        simp [Function.update_of_ne (Ne.symm htm)]
      · by_cases hat : a = t
        · subst hat
          simp [Function.update_of_ne ha]
        · simp [Function.update_of_ne ha, Function.update_of_ne hat]
    · simp [Function.update_of_ne (Ne.symm htm)]
    · intro a ha
      by_cases hat : a = t
      · subst hat
        simp [Function.update_of_ne ha]
      · simp [Function.update_of_ne ha, Function.update_of_ne hat]

theorem WriterInv.send {w : ItWriter} {pend : List Msg} {m : Msg}
    (h : WriterInv w pend m.pieces w.mlen) :
    WriterInv w (pend ++ [{ m with len := w.mlen }]) [] 0 := by
  cases h with
  | empty _ _ hps _ => cases hps
  | laid last le hc sent open_ => exact .laid last le hc (sent.snoc open_) (.nil _ _)

theorem Inv.nodup_queued (h : Inv s) : (queued s).Nodup := h.nodup.sublist h.queued_suffix.sublist

theorem Inv.send_some (h : Inv s) {w : ℕ} {m : Msg} (hm : s.opened w = some m) :
    ∃ q', s.q.send w = some q' ∧
      Seg some (fun a => (q'.hdrs a).next) q'.head (queued s ++ [m.hdr]) none ∧
      q'.tail = some m.hdr ∧ q'.size = s.q.size ∧ q'.writerVect = s.q.writerVect ∧
      q'.fresh = s.q.fresh ∧ q'.freed = s.q.freed ∧
      (∀ a, (q'.hdrs a).writerId = (s.q.hdrs a).writerId) ∧
      (q'.hdrs m.hdr).length = (s.q.writerVect w).mlen ∧
      ∀ a, a ≠ m.hdr → (q'.hdrs a).length = (s.q.hdrs a).length := by
  apply send_spec (h.opened w m hm).2.2.1 h.queue h.tail h.nodup_queued
  intro hq
  exact h.apart w m hm (h.queued_suffix.subset hq)

theorem inv_send (h : Inv s) {w : ℕ} (hs : step s (.send w) = some s') : Inv s' := by
  simp only [step, Option.bind_eq_bind, Option.bind_eq_some_iff, Option.some.injEq] at hs
  obtain ⟨m, hm, q, hq, rfl⟩ := hs
  obtain ⟨q', hq', hseg, htail, hsize, hvect, hfresh, hfreed, hid, hlen, hlen'⟩ := h.send_some hm
  have he : q' = q := Option.some.inj (hq'.symm.trans hq)
  subst he
  obtain ⟨hw, hmw, -, hmid⟩ := h.opened w m hm
  have hrel : s.released ≤ s.sent.length := Nat.le_trans h.released_le h.waited_le
  have hun : (s.sent ++ [{ m with len := (s.q.writerVect w).mlen }]).drop s.released =
      unreleased s ++ [{ m with len := (s.q.writerVect w).mlen }] :=
    List.drop_append_of_le_length hrel
  have hwait : (s.sent ++ [{ m with len := (s.q.writerVect w).mlen }]).drop s.waited.length =
      s.sent.drop s.waited.length ++ [{ m with len := (s.q.writerVect w).mlen }] :=
    List.drop_append_of_le_length h.waited_le
  have hopened : ∀ v m', Function.update s.opened w none v = some m' →
      v ≠ w ∧ s.opened v = some m' := by
    intro v m' hm'
    by_cases hv : v = w
    · subst hv
      rw [Function.update_self] at hm'
      cases hm'
    · rw [Function.update_of_ne hv] at hm'
      exact ⟨hv, hm'⟩
  have hlive : ∀ m' ∈ unreleased s, m'.hdr ≠ m.hdr := by
    intro m' hm' he
    apply h.apart w m hm
    rw [← he]
    exact List.mem_map_of_mem hm'
  refine
    { mem := ⟨?_, ?_⟩, ids := ?_, few := ?_, opened := ?_, live := ?_, nodup := ?_,
      apart := ?_, queue := ?_, tail := ?_, waited := ?_, cur := ?_ }
  · intro v
    have hv := h.mem.writers v
    simp only [pend, openPieces, openLen, unreleased, hun, hvect, List.filter_append]
    by_cases hvw : v = w
    · subst hvw
      rw [Function.update_self]
      simp only [openPieces, openLen, hm] at hv
      have := hv.send
      simpa [hmw, pend, unreleased] using this
    · rw [Function.update_of_ne hvw]
      have hne : ¬ m.writer = v := by
        rw [hmw]
        exact fun he => hvw he.symm
      simpa [hne, pend, unreleased, openPieces, openLen] using hv
  · refine (MemInv.congr h.mem ?_ ?_ ?_ hfresh hfreed fun _ => rfl : MemInv q' _ _ (openLen s)).names
    · intro v
      rw [hvect]
    · intro v
      rw [hvect]
    · intro v
      rw [hvect]
  · intro v hv
    simp only at hv ⊢
    rw [hsize] at hv
    rw [hvect]
    exact h.ids v hv
  · simp only
    rw [hsize]
    exact h.few
  · intro v m' hm'
    obtain ⟨-, hm''⟩ := hopened v m' hm'
    simp only
    rw [hsize, hvect, hid]
    exact h.opened v m' hm''
  · intro m' hm'
    simp only [unreleased, hun] at hm'
    simp only
    rw [hsize, hid]
    rcases List.mem_append.1 hm' with hm' | hm'
    · obtain ⟨h1, h2, h3⟩ := h.live m' hm'
      refine ⟨h1, h2, ?_⟩
      rw [hlen' _ (hlive m' hm')]
      exact h3
    · rw [List.mem_singleton.1 hm']
      exact ⟨by simp only; rw [hmw]; exact hw, by simp only; rw [hmw]; exact hmid, hlen⟩
  · simp only [unreleased, hun, List.map_append]
    rw [List.nodup_append]
    refine ⟨h.nodup, by simp, ?_⟩
    intro a ha b hb he
    obtain ⟨m', hm', rfl⟩ := List.mem_map.1 ha
    have hb' : b = m.hdr := List.mem_singleton.1 hb
    exact hlive m' hm' (he.trans hb')
  · intro v m' hm'
    obtain ⟨hv, hm''⟩ := hopened v m' hm'
    simp only [unreleased, hun, List.map_append]
    intro hmem
    rcases List.mem_append.1 hmem with hmem | hmem
    · exact h.apart v m' hm'' hmem
    · exact h.opened_ne hm'' hm hv (List.mem_singleton.1 hmem)
  · simp only [queued, hwait, List.map_append]
    exact hseg
  · intro a ha
    simp only [queued, hwait, List.map_append] at ha
    have hlast : some m.hdr = some a := by simpa using ha
    rw [← hlast]
    exact htail
  · simp only [List.map_append]
    rw [List.take_append_of_le_length (by rw [List.length_map]; exact h.waited_le)]
    exact h.waited
  · rcases h.cur with hc | ⟨m', h1, h2, h3⟩
    · exact .inl hc
    · refine .inr ⟨m', h1, ?_, h3⟩
      simp only
      rw [List.getElem?_append_left (List.getElem?_eq_some_iff.1 h2).1]
      exact h2

theorem wait_spec {q q' : ItQueue} {header : Addr} {l : List Addr}
    (hq : Seg some (fun a => (q.hdrs a).next) q.head l none) (hnodup : l.Nodup)
    (hw : q.wait = some (q', header)) :
    ∃ l', l = header :: l' ∧ Seg some (fun a => (q'.hdrs a).next) q'.head l' none ∧
      q'.tail = q.tail ∧ q'.size = q.size ∧ q'.writerVect = q.writerVect ∧
      q'.fresh = q.fresh ∧ q'.freed = q.freed ∧
      (∀ a, (q'.hdrs a).writerId = (q.hdrs a).writerId) ∧
      ∀ a, (q'.hdrs a).length = (q.hdrs a).length := by
  simp only [ItQueue.wait, Option.bind_eq_bind, Option.bind_eq_some_iff, Option.some.injEq,
    Prod.mk.injEq] at hw
  obtain ⟨_, hhead, rfl, rfl⟩ := hw
  cases l with
  | nil =>
    have : q.head = none := hq
    rw [this] at hhead
    cases hhead
  | cons a l =>
    obtain ⟨ha, hseg⟩ := hq
    have he := Option.some.inj (ha.symm.trans hhead)
    subst he
    rw [List.nodup_cons] at hnodup
    refine ⟨l, rfl, ?_, rfl, rfl, rfl, rfl, rfl, ?_, ?_⟩
    · simp only [ItQueue.setHeader]
      refine hseg.congr fun b hb => ?_
      have hne : b ≠ a := by
        rintro rfl
        exact hnodup.1 hb
      simp [Function.update_of_ne hne]
    · intro b
      by_cases hb : b = a
      · subst hb
        simp [ItQueue.setHeader]
      · simp [ItQueue.setHeader, Function.update_of_ne hb]
    · intro b
      by_cases hb : b = a
      · subst hb
        simp [ItQueue.setHeader]
      · simp [ItQueue.setHeader, Function.update_of_ne hb]

theorem inv_wait (h : Inv s) (hs : step s .wait = some s') : Inv s' := by
  simp only [step, Option.ite_none_right_eq_some, Option.bind_eq_bind, Option.bind_eq_some_iff,
    Option.some.injEq] at hs
  obtain ⟨hnone, ⟨q, header⟩, hq, rfl⟩ := hs
  obtain ⟨l, hl, hseg, htail, hsize, hvect, hfresh, hfreed, hid, hlen⟩ :=
    wait_spec h.queue h.nodup_queued hq
  have hrel : s.waited.length = s.released := by
    rcases h.cur with ⟨-, hc⟩ | ⟨m, hc, -, -⟩
    · exact hc
    · rw [hnone] at hc
      cases hc
  -- the message is the first of those not yet returned
  have hdrop : ∃ m ms, s.sent.drop s.waited.length = m :: ms ∧ m.hdr = header ∧
      ms.map Msg.hdr = l := by
    unfold queued at hl
    cases hd : s.sent.drop s.waited.length with
    | nil =>
      rw [hd] at hl
      cases hl
    | cons m ms =>
      rw [hd, List.map_cons, List.cons.injEq] at hl
      exact ⟨m, ms, rfl, hl.1, hl.2⟩
  obtain ⟨m, ms, hd, rfl, rfl⟩ := hdrop
  have hget : s.sent[s.waited.length]? = some m := by
    have := congrArg (fun l : List Msg => l[0]?) hd
    simpa using this
  have hdrop' : s.sent.drop (s.waited ++ [m.hdr]).length = ms := by
    rw [List.length_append, List.length_singleton, ← List.drop_drop, hd]
    rfl
  refine
    { mem := ?_, ids := ?_, few := ?_, opened := ?_, live := ?_, nodup := h.nodup,
      apart := h.apart, queue := ?_, tail := ?_, waited := ?_,
      cur := .inr ⟨m, rfl, by simp only; rw [← hrel]; exact hget, by simp [hrel]⟩ }
  · refine h.mem.congr ?_ ?_ ?_ hfresh hfreed fun v => ?_
    · intro v
      rw [hvect]
    · intro v
      rw [hvect]
    · intro v
      rw [hvect]
    · unfold openLen
      simp only
      rw [hvect]
  · intro v hv
    simp only at hv ⊢
    rw [hsize] at hv
    rw [hvect]
    exact h.ids v hv
  · simp only
    rw [hsize]
    exact h.few
  · intro v m' hm'
    simp only
    rw [hsize, hvect, hid]
    exact h.opened v m' hm'
  · intro m' hm'
    simp only
    rw [hsize, hid, hlen]
    exact h.live m' hm'
  · simp only [queued, hdrop']
    exact hseg
  · intro a ha
    simp only [queued, hdrop'] at ha
    simp only
    rw [htail]
    apply h.tail a
    unfold queued
    rw [hd, List.map_cons, List.getLast?_cons, ha]
    rfl
  · simp only
    have hlen' : (s.waited ++ [m.hdr]).length = s.waited.length + 1 := by simp
    rw [hlen', List.take_add_one, List.getElem?_map, hget, ← h.waited]
    rfl

theorem Inv.release_some (h : Inv s) {header : Addr} (hc : s.cur = some header) :
    ∃ m ms q', s.sent[s.released]? = some m ∧ m.hdr = header ∧ unreleased s = m :: ms ∧
      s.q.writerOf header = some m.writer ∧ pend s m.writer = m :: (ms.filter fun m' => m'.writer = m.writer) ∧
      s.q.release header = some q' ∧
      MemInv q' (Function.update (pend s) m.writer (ms.filter fun m' => m'.writer = m.writer))
        (openPieces s) (openLen s) ∧
      SameBut s.q q' m.writer ∧ q'.hdrs = s.q.hdrs ∧
      (q'.writerVect m.writer).toSend = (s.q.writerVect m.writer).toSend ∧
      (q'.writerVect m.writer).mlen = (s.q.writerVect m.writer).mlen := by
  rcases h.cur with ⟨hc', -⟩ | ⟨m, hc', hget, -⟩
  · rw [hc'] at hc
    cases hc
  · have he : m.hdr = header := Option.some.inj (hc'.symm.trans hc)
    subst he
    have hlt := (List.getElem?_eq_some_iff.1 hget).1
    have hun : unreleased s = m :: s.sent.drop (s.released + 1) := by
      unfold unreleased
      rw [List.drop_eq_getElem_cons hlt]
      have := List.getElem?_eq_getElem hlt
      rw [hget] at this
      rw [← Option.some.inj this]
    obtain ⟨hw, hid, hlen⟩ := h.live m (by rw [hun]; exact List.mem_cons_self)
    have hof : s.q.writerOf m.hdr = some m.writer := by
      unfold ItQueue.writerOf
      simp only [hid]
      exact if_pos hw
    have hp : pend s m.writer =
        m :: ((s.sent.drop (s.released + 1)).filter fun m' => m'.writer = m.writer) := by
      unfold pend
      rw [hun, List.filter_cons_of_pos (by simp)]
    have hps : ∀ p ∈ (openPieces s m.writer).head?, 0 < p.len := by
      intro p hp
      unfold openPieces at hp
      cases ho : s.opened m.writer with
      | none =>
        rw [ho] at hp
        cases hp
      | some m' =>
        rw [ho] at hp
        cases hp
        exact Nat.zero_lt_succ 15
    obtain ⟨q', hr, hmem, hsame, hhdrs, hsend, hmlen⟩ := h.mem.release hp hps hof hlen
    exact ⟨m, _, q', hget, rfl, hun, hof, hp, hr, hmem, hsame, hhdrs, hsend, hmlen⟩

theorem inv_release (h : Inv s) (hs : step s .release = some s') : Inv s' := by
  simp only [step, Option.bind_eq_bind, Option.bind_eq_some_iff, Option.some.injEq] at hs
  obtain ⟨header, hc, q, hq, rfl⟩ := hs
  obtain ⟨m, ms, q', hget, hhdr, hun, -, -, hr, hmem, hsame, hhdrs, hsend, hmlen⟩ :=
    h.release_some hc
  have he : q' = q := Option.some.inj (hr.symm.trans hq)
  subst he
  have hun' : s.sent.drop (s.released + 1) = ms := by
    have : s.sent.drop s.released = m :: ms := hun
    rw [← List.drop_drop, this]
    rfl
  have hsub : ∀ m' ∈ ms, m' ∈ unreleased s := by
    intro m' hm'
    rw [hun]
    exact List.mem_cons_of_mem _ hm'
  have hwr : s.waited.length = s.released + 1 := by
    rcases h.cur with ⟨hc', -⟩ | ⟨_, _, _, hw⟩
    · rw [hc'] at hc
      cases hc
    · exact hw
  have hnodup := h.nodup
  rw [hun, List.map_cons, List.nodup_cons] at hnodup
  refine
    { mem := ?_, ids := ?_, few := ?_, opened := ?_, live := ?_, nodup := ?_, apart := ?_,
      queue := ?_, tail := ?_, waited := h.waited, cur := .inl ⟨rfl, hwr⟩ }
  · have hpend : pend { s with q := q', cur := none, released := s.released + 1 } =
        Function.update (pend s) m.writer (ms.filter fun m' => m'.writer = m.writer) := by
      funext v
      unfold pend
      simp only [unreleased, hun']
      by_cases hv : v = m.writer
      · subst hv
        rw [Function.update_self]
      · rw [Function.update_of_ne hv]
        have : s.sent.drop s.released = m :: ms := hun
        rw [this, List.filter_cons_of_neg]
        simpa using fun he => hv he.symm
    have hl : openLen { s with q := q', cur := none, released := s.released + 1 } = openLen s := by
      funext v
      unfold openLen
      simp only
      by_cases hv : v = m.writer
      · subst hv
        rw [hmlen]
      · rw [hsame.others v hv]
    rw [hpend, hl]
    exact hmem
  · intro v hv
    simp only at hv ⊢
    rw [hsame.size] at hv
    by_cases hvw : v = m.writer
    · subst hvw
      rw [hsame.id]
      exact h.ids _ hv
    · rw [hsame.others v hvw]
      exact h.ids v hv
  · simp only
    rw [hsame.size]
    exact h.few
  · intro v m' hm'
    obtain ⟨h1, h2, h3, h4⟩ := h.opened v m' hm'
    simp only
    rw [hsame.size, hhdrs]
    refine ⟨h1, h2, ?_, h4⟩
    by_cases hvw : v = m.writer
    · subst hvw
      rw [hsend]
      exact h3
    · rw [hsame.others v hvw]
      exact h3
  · intro m' hm'
    simp only [unreleased, hun'] at hm'
    simp only
    rw [hsame.size, hhdrs]
    exact h.live m' (hsub m' hm')
  · simp only [unreleased, hun']
    exact hnodup.2
  · intro v m' hm'
    have := h.apart v m' hm'
    rw [hun, List.map_cons, List.mem_cons, not_or] at this
    simp only [unreleased, hun']
    exact this.2
  · simp only
    rw [hhdrs, hsame.head]
    exact h.queue
  · intro a ha
    simp only
    rw [hsame.tail]
    exact h.tail a ha

end Steps

/-- At most 2^16 writers are registered. -/
def fewWriters (s : World) (a : Act) : Prop := a = .register → s.q.size < 2 ^ 16

theorem Inv.step {s s' : World} {a : Act} (h : Inv s)
    (hok : fewWriters s a) (hs : step s a = some s') : Inv s' := by
  cases a with
  | register => exact inv_register h (hok rfl) hs
  | openMsg w ID SZ => exact inv_open h hs
  | alloc w size => exact inv_alloc h hs
  | send w => exact inv_send h hs
  | wait => exact inv_wait h hs
  | release => exact inv_release h hs

/-! ## What holds along every run -/

/-- The queue does what it is for. -/
structure Correct (s : World) : Prop where
  /-- `wait` returns what was sent, in order and once, and does not block while there is more. -/
  fifo : ∃ rest, s.sent.map Msg.hdr = s.waited ++ rest ∧ (s.q.head = none ↔ rest = [])
  /-- The message that the reader has is read where its writer opened it, and can be released. -/
  read : ∀ header, s.cur = some header → ∃ m, s.sent[s.released]? = some m ∧ m.hdr = header ∧
    s.q.itqRead header m.sz = some m.contents ∧ s.q.release header ≠ none
  send : ∀ w m, s.opened w = some m → s.q.send w ≠ none
  /-- A freed block holds nothing of a message that is not released. -/
  alive : ∀ m, m ∈ unreleased s ∨ (∃ w, s.opened w = some m) → ∀ p ∈ m.pieces, p.blk ∉ s.q.freed
  /-- A writer with nothing open and nothing to release is at its tail. -/
  drained : ∀ w, s.opened w = none → (∀ m ∈ unreleased s, m.writer ≠ w) →
    (s.q.writerVect w).blocks = [] ∨
      ∃ b, (s.q.writerVect w).blocks = [b] ∧ (s.q.writerVect w).hoff = (s.q.writerVect w).toff

section Correct
variable {s : World}

theorem Inv.fifo (h : Inv s) :
    ∃ rest, s.sent.map Msg.hdr = s.waited ++ rest ∧ (s.q.head = none ↔ rest = []) := by
  refine ⟨queued s, ?_, ?_⟩
  · have := List.take_append_drop s.waited.length (s.sent.map Msg.hdr)
    rw [← h.waited, ← List.map_drop] at this
    exact this.symm
  · have hq := h.queue
    cases hl : queued s with
    | nil =>
      rw [hl] at hq
      exact ⟨fun _ => rfl, fun _ => hq⟩
    | cons a l =>
      rw [hl] at hq
      rw [hq.1]
      simp

theorem Inv.read (h : Inv s) {header : Addr} (hc : s.cur = some header) :
    ∃ m, s.sent[s.released]? = some m ∧ m.hdr = header ∧
      s.q.itqRead header m.sz = some m.contents ∧ s.q.release header ≠ none := by
  obtain ⟨m, ms, q', hget, hhdr, -, hof, hp, hr, -, -, -, -, -⟩ := h.release_some hc
  refine ⟨m, hget, hhdr, ?_, by rw [hr]; simp⟩
  have hw := h.mem.writers m.writer
  rw [hp] at hw
  cases hw with
  | empty _ hp _ _ => cases hp
  | laid last le hcan sent open_ =>
    cases sent with
    | cons hwalk _ =>
      obtain ⟨cs, x, c, ds, h1, h2, h3⟩ := hwalk.seek_seek
      unfold ItQueue.itqRead
      simp only [hof, Option.bind_eq_bind, Option.bind_some, h1, h2, List.head?_cons, h3]

theorem Inv.drained (h : Inv s) {w : ℕ} (ho : s.opened w = none)
    (hw : ∀ m ∈ unreleased s, m.writer ≠ w) :
    (s.q.writerVect w).blocks = [] ∨
      ∃ b, (s.q.writerVect w).blocks = [b] ∧
        (s.q.writerVect w).hoff = (s.q.writerVect w).toff := by
  have hpend : pend s w = [] := by
    rw [List.eq_nil_iff_forall_not_mem]
    intro m hm
    exact hw m (mem_pend.1 hm).1 (mem_pend.1 hm).2
  have hinv := h.mem.writers w
  rw [hpend] at hinv
  unfold openPieces openLen at hinv
  rw [ho] at hinv
  cases hinv with
  | empty hb _ _ _ => exact .inl hb
  | laid last le hcan sent open_ =>
    generalize hbs : (s.q.writerVect w).blocks = bs at sent
    generalize hof : (s.q.writerVect w).hoff = o at sent
    cases sent
    generalize htof : (s.q.writerVect w).toff = o' at open_
    cases open_
    exact .inr ⟨_, rfl, rfl⟩

theorem Inv.correct (h : Inv s) : Correct s := by
  refine ⟨h.fifo, fun header hc => h.read hc, ?_, ?_, fun w ho hw => h.drained ho hw⟩
  · intro w m hm
    obtain ⟨q', hq, -⟩ := h.send_some hm
    rw [hq]
    simp
  · intro m hm p hp
    rcases hm with hm | ⟨w, hm⟩
    · exact h.mem.alive m.writer p (pend_piece_mem hm hp)
    · exact h.mem.alive w p (open_piece_mem hm hp)

end Correct

/-- With at most 2^16 writers the queue is correct in every state of every run. -/
theorem itq_correct {s : World} (hr : ReachIf system fewWriters s) : Correct s := by
  apply Inv.correct
  refine ReachIf.invariant (M := system) inv_init ?_ hr
  intro s a s' h hok hs
  exact h.step hok hs

/-- A message with a long string, at the reader. -/
theorem itq_correct_read : ∃ s, s.cur = some (0, 0) ∧ s.waited = [(0, 0)] ∧ Correct s := by
  have hrun : runIf system (fun s _ => decide (s.q.size < 2 ^ 16)) init
    [.register, .openMsg 0 2 8, .alloc 0 5000, .send 0, .wait] = some _ := rfl
  have hr := ReachIf.runIf (P := fewWriters) (fun s a h _ => of_decide_eq_true h) .init hrun
  exact ⟨_, rfl, rfl, itq_correct hr⟩

/-! ## One writer too many -/

/-- `n` writers and nothing else. -/
def registered (n : ℕ) : World :=
  { init with q := { init.q with size := n, writerVect := fun i => .new (if i < n then i else 0) } }

theorem step_registered (n : ℕ) : step (registered n) .register = some (registered (n + 1)) := by
  have hvect : Function.update (fun i => ItWriter.new (if i < n then i else 0)) n (.new n) =
      fun i => ItWriter.new (if i < n + 1 then i else 0) := by
    funext i
    by_cases hi : i = n
    · subst hi
      rw [Function.update_self, if_pos (Nat.lt_succ_self i)]
    · have hiff : i < n ↔ i < n + 1 := by omega
      rw [Function.update_of_ne hi]
      simp only [hiff]
  simp only [step, registered, ItQueue.registerWriter, ItQueue.setWriter, hvect]

theorem reach_registered (n : ℕ) : Reach system (registered n) := by
  induction n with
  | zero =>
    have h0 : registered 0 = init := by
      simp [registered, init]
    rw [h0]
    exact .init
  | succ n ih => exact .next (a := Act.register) ih trivial (step_registered n)

/-- The header has 16 bits for the writer: what writer 2^16 sends is looked for at writer 0. And a
message that is open keeps the tail ahead of the head. -/
theorem itq_not_correct :
    (∃ s header m, Reach system s ∧ s.cur = some header ∧ s.sent[s.released]? = some m ∧
      m.hdr = header ∧ s.q.itqRead header m.sz ≠ some m.contents) ∧
    ∃ s, Reach system s ∧ (∀ m ∈ unreleased s, m.writer ≠ 0) ∧
      (s.q.writerVect 0).blocks ≠ [] ∧ (s.q.writerVect 0).hoff ≠ (s.q.writerVect 0).toff := by
  constructor
  · have hrun : run system (registered 65537) [.openMsg 65536 2 8, .send 65536, .wait] = some _ :=
      rfl
    refine ⟨_, _, _, (reach_registered 65537).run hrun, rfl, rfl, rfl, ?_⟩
    decide
  · have hrun : run system init [.register, .openMsg 0 2 8] = some _ := rfl
    refine ⟨_, Reach.run .init hrun, ?_, ?_, ?_⟩
    · intro m hm
      cases hm
    · decide
    · decide

end Netp.Genf.Itq
