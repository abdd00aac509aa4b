import Netp.Kring.CtrlInv

/-! # Every step of the control ring keeps the representation

One lemma for each step that changes the view; the other steps go through `Rep.own` (a writer that
touches its own page only) or `Rep.readerMove` (the reader loads).
-/

namespace Netp.Kring.Ctrl
open Netp.Lib
set_option autoImplicit false

/-! ## Writers -/

section Writer
variable {s : State} {v : View} {w : WriterId}

theorem Rep.move (h : Rep s v) {pc : WriterPc} (hold : (s.writer w).pc ≠ .idle)
    (hnew : pc ≠ .idle) (hw : WriterRep (s.setPc w pc) v w) : Rep (s.setPc w pc) v :=
  h.own w rfl rfl rfl rfl rfl rfl rfl (fun _ _ => rfl) (fun _ _ => rfl)
    (fun _ hu => ⟨Function.update_of_ne hu _ _, rfl⟩) hold (by simpa [State.setPc] using hnew)
    (by simp [State.setPc]) hw

theorem Rep.link (h : Rep s v) {pc : WriterPc} {p x : ℕ} (hp : Has v w p)
    (hold : (s.writer w).pc ≠ .idle) (hnew : pc ≠ .idle)
    (hw : WriterRep ((s.setNext p x).setPc w pc) v w) : Rep ((s.setNext p x).setPc w pc) v := by
  refine h.own w rfl rfl rfl rfl rfl rfl rfl ?_ (fun _ _ => rfl)
    (fun _ hu => ⟨Function.update_of_ne hu _ _, rfl⟩) hold (by simpa [State.setPc] using hnew)
    (by simp [State.setPc, State.setNext]) hw
  intro q hq
  exact Function.update_of_ne (by rintro rfl; exact hq hp.2) _ _

theorem Rep.fill (h : Rep s v) {pc : WriterPc} {p : ℕ} {x : Page} (hp : Has v w p)
    (hold : (s.writer w).pc ≠ .idle) (hnew : pc ≠ .idle)
    (hw : WriterRep ((s.setPage p x).setPc w pc) v w) : Rep ((s.setPage p x).setPc w pc) v := by
  refine h.own w rfl rfl rfl rfl rfl rfl rfl (fun _ _ => rfl) ?_
    (fun _ hu => ⟨Function.update_of_ne hu _ _, rfl⟩) hold (by simpa [State.setPc] using hnew)
    (by simp [State.setPc, State.setPage]) hw
  intro q hq
  exact Function.update_of_ne (by rintro rfl; exact hq hp.2) _ _

/-- `kctrl_allocate` takes the first free page; its link still leads to the rest of the list. -/
theorem Rep.alloc (h : Rep s v) {free next : ℕ} (hpc : (s.writer w).pc = .allocCas free next)
    (hfree : s.free = free) (hnext : s.next free = next) :
    ∃ v', Rep ({ s with free := next }.setPc w (.allocStoreWloc free)) v' := by
  have hnull : free ≠ kctrlNull := by
    have := h.writers w
    simpa only [WriterRep, hpc] using this
  obtain ⟨rest, hrest⟩ : ∃ rest, v.free = free :: rest := by
    have hl := h.free_links
    cases hf : v.free with
    | nil => rw [hf, hfree] at hl; exact absurd hl hnull
    | cons a l => rw [hf, hfree] at hl; exact ⟨l, by rw [show free = a from hl.1]⟩
  have hrole := h.free_role free (by simp [hrest])
  have hnotin : free ∉ rest := by
    have := h.free_nodup
    rw [hrest] at this
    exact (List.nodup_cons.1 this).1
  have hoff : ∀ p, v.role p ≠ .free → Function.update v.role free (.writer w) p = v.role p :=
    fun p hp => Function.update_of_ne (by rintro rfl; exact hp hrole.2) _ _
  have hothers : ∀ u, u ≠ w → ({ s with free := next }.setPc w (.allocStoreWloc free)).writer u =
      s.writer u := fun u hu => Function.update_of_ne hu _ _
  refine ⟨{ v with role := Function.update v.role free (.writer w), free := rest }, ?_⟩
  refine
    { free_links := ?_, read_links := h.read_links, stack_links := h.stack_links,
      free_nodup := ?_, chain_nodup := h.chain_nodup, free_role := ?_, chain_role := ?_,
      reader := ?_, writers := ?_, history := h.history, calls := ?_, held := h.held }
  · have hl := h.free_links
    rw [hrest] at hl
    exact hnext ▸ hl.2
  · have := h.free_nodup
    rw [hrest] at this
    exact (List.nodup_cons.1 this).2
  · intro p hp
    have hp' := h.free_role p (by rw [hrest]; exact List.mem_cons_of_mem _ hp)
    refine ⟨hp'.1, ?_⟩
    rw [← hp'.2]
    exact Function.update_of_ne (by rintro rfl; exact hnotin hp) _ _
  · intro p hp
    have hp' := h.chain_role p hp
    exact ⟨hp'.1, (hoff p (by rw [hp'.2]; simp)).trans hp'.2⟩
  · refine h.reader.frame rfl rfl rfl rfl (fun _ hp => hp) h.head_mem (fun _ _ => rfl) ?_
    intro p hp
    exact ⟨(hoff p (by rw [hp]; simp)).trans hp, rfl⟩
  · intro u
    by_cases hu : u = w
    · subst hu
      simp [WriterRep, State.setPc, Has, hrole.1]
    · refine (h.writers u).frame (hothers u hu) rfl fun p hp => ⟨?_, rfl, rfl⟩
      exact (hoff p (by rw [hp]; simp)).trans hp
  · intro u
    by_cases hu : u = w
    · subst hu
      rw [inCall_of_ne (by simp [State.setPc])]
      have := h.calls u
      rw [inCall_of_ne (by simp [hpc])] at this
      simpa [State.setPc] using this
    · rw [inCall_congr (hothers u hu)]
      exact h.calls u

/-- `kctrl_push_new` puts the writer's page, which already links to the stack, on top. -/
theorem Rep.push (h : Rep s v) {stack wloc : ℕ} (hpc : (s.writer w).pc = .pushCas stack wloc)
    (hstack : s.stack = stack) :
    ∃ v', Rep ({ s with stack := wloc, pushed := s.pushed ++ [(w, (s.writer w).data)] }.setPc w
      .idle) v' := by
  have hw := h.writers w
  simp only [WriterRep, hpc] at hw
  obtain ⟨hhas, hdata, hnext, rfl⟩ := hw
  set p := s.wloc w with hp
  have hnotin : p ∉ v.chain := fun hm => by
    have := (h.chain_role p hm).2
    rw [hhas.2] at this
    cases this
  have hoff : ∀ q, v.role q ≠ .writer w → Function.update v.role p .chain q = v.role q :=
    fun q hq => Function.update_of_ne (by rintro rfl; exact hq hhas.2) _ _
  have hothers : ∀ u, u ≠ w → ({ s with stack := p, pushed := s.pushed ++
      [(w, (s.writer w).data)] }.setPc w .idle).writer u = s.writer u :=
    fun u hu => Function.update_of_ne hu _ _
  refine ⟨{ v with role := Function.update v.role p .chain, fresh := p :: v.fresh }, ?_⟩
  refine
    { free_links := h.free_links, read_links := h.read_links, stack_links := ?_,
      free_nodup := h.free_nodup, chain_nodup := ?_, free_role := ?_, chain_role := ?_,
      reader := ?_, writers := ?_, history := ?_, calls := ?_, held := h.held }
  · refine ⟨rfl, ?_⟩
    have hl := h.stack_links
    rw [hstack, ← hnext] at hl
    exact hl
  · have hperm : (v.rd ++ v.tail :: (v.todo ++ v.done ++ p :: v.fresh)).Perm (p :: v.chain) := by
      have : v.rd ++ v.tail :: (v.todo ++ v.done ++ p :: v.fresh) =
          (v.rd ++ v.tail :: (v.todo ++ v.done)) ++ p :: v.fresh := by simp
      rw [this]
      refine List.perm_middle.trans ?_
      simp [View.chain]
    exact hperm.nodup_iff.2 (List.nodup_cons.2 ⟨hnotin, h.chain_nodup⟩)
  · intro q hq
    have hq' := h.free_role q hq
    exact ⟨hq'.1, (hoff q (by rw [hq'.2]; simp)).trans hq'.2⟩
  · intro q hq
    have hq' : q = p ∨ q ∈ v.chain := by
      simp only [View.mem_chain, List.mem_cons] at hq ⊢
      tauto
    rcases hq' with rfl | hq'
    · exact ⟨hhas.1, Function.update_self _ _ _⟩
    · have hr := h.chain_role q hq'
      exact ⟨hr.1, (hoff q (by rw [hr.2]; simp)).trans hr.2⟩
  · refine h.reader.frame rfl rfl rfl rfl (List.subset_cons_self _ _) h.head_mem
      (fun _ _ => rfl) ?_
    intro q hq
    exact ⟨(hoff q (by rw [hq]; simp)).trans hq, rfl⟩
  · intro u
    by_cases hu : u = w
    · subst hu
      simp [WriterRep, State.setPc]
    · refine (h.writers u).frame (hothers u hu) rfl fun q hq => ⟨?_, rfl, rfl⟩
      refine (hoff q ?_).trans hq
      rw [hq]
      exact fun e => hu (Role.writer.inj e)
  · have hunread : ∀ pc, unread { v with
        role := Function.update v.role p .chain, fresh := p :: v.fresh } pc = unread v pc ++ [p] :=
      fun pc => by simp [unread]
    rw [hunread, List.map_append, ← List.append_assoc]
    simp [State.setPc, h.history, hdata]
  · intro u
    have hc := h.calls u
    by_cases hu : u = w
    · subst hu
      rw [inCall_of_ne (by simp [hpc])] at hc
      simpa [inCall, State.setPc, List.filter_append] using hc
    · rw [inCall_congr (hothers u hu)]
      have hne : ¬ w = u := fun e => hu e.symm
      simpa [State.setPc, List.filter_append, hne] using hc

theorem Rep.call (h : Rep s v) {data : List UInt8} (hpc : (s.writer w).pc = .idle) :
    Rep { s with
      writer := Function.update s.writer w ⟨.allocLoadFree, clip data⟩
      calls := Function.update s.calls w (s.calls w ++ [clip data]) } v := by
  refine
    { free_links := h.free_links, read_links := h.read_links, stack_links := h.stack_links,
      free_nodup := h.free_nodup, chain_nodup := h.chain_nodup, free_role := h.free_role,
      chain_role := h.chain_role, reader := h.reader, writers := ?_, history := h.history,
      calls := ?_, held := h.held }
  · intro u
    by_cases hu : u = w
    · subst hu
      simp [WriterRep]
    · exact (h.writers u).frame (Function.update_of_ne hu _ _) rfl fun p hp => ⟨hp, rfl, rfl⟩
  · intro u
    have hc := h.calls u
    by_cases hu : u = w
    · subst hu
      have h0 : inCall s u = [] := by simp [inCall, hpc]
      rw [h0, List.append_nil] at hc
      simp [inCall, hc]
    · rw [inCall_congr (Function.update_of_ne hu _ _)]
      simpa [hu] using hc

/-- Every step of a writer that does not meet a recycled first page keeps the representation. -/
theorem rep_writerStep (h : Rep s v) (hok : noAba s (.writer w)) {s' : State}
    (hs : writerStep s w = some s') : ∃ v', Rep s' v' := by
  have hw := h.writers w
  cases hpc : (s.writer w).pc <;> simp only [writerStep, hpc, WriterRep] at hs hw
  case idle => cases hs
  case allocLoadFree =>
    split at hs
    · cases hs; exact ⟨v, h⟩
    · cases hs
      refine ⟨v, h.move (by simp [hpc]) (by simp) ?_⟩
      simpa [WriterRep, State.setPc]
  case allocLoadNext free =>
    cases hs
    exact ⟨v, h.move (by simp [hpc]) (by simp) (by simpa [WriterRep, State.setPc])⟩
  case allocCas free next =>
    split at hs
    · rename_i hf
      cases hs
      exact h.alloc hpc hf (noAba_cas hok hpc hf)
    · cases hs
      exact ⟨v, h.move (by simp [hpc]) (by simp) (by simp [WriterRep, State.setPc])⟩
  case allocStoreWloc p =>
    cases hs
    refine ⟨v, h.own w rfl rfl rfl rfl rfl rfl rfl (fun _ _ => rfl) (fun _ _ => rfl) ?_
      (by simp [hpc]) (by simp [State.setPc]) (by simp [State.setPc]) ?_⟩
    · exact fun u hu => ⟨Function.update_of_ne hu _ _, Function.update_of_ne hu _ _⟩
    · simpa [WriterRep, State.setPc]
  case allocClearNext p =>
    cases hs
    rw [kctrlIndex_of_lt hw.1.1]
    exact ⟨v, h.link hw.1 (by simp [hpc]) (by simp)
      (by simpa [WriterRep, State.setPc, State.setNext])⟩
  case writeLen p =>
    cases hs
    rw [kctrlIndex_of_lt hw.1.1]
    exact ⟨v, h.fill hw.1 (by simp [hpc]) (by simp)
      (by simpa [WriterRep, State.setPc, State.setPage])⟩
  case writeBytes p =>
    cases hs
    obtain ⟨h1, h2, h3⟩ := hw
    rw [kctrlIndex_of_lt h1.1]
    refine ⟨v, h.fill h1 (by simp [hpc]) (by simp) ?_⟩
    simp only [WriterRep, State.setPc, State.setPage, Function.update_self, h2]
    exact ⟨h1, by simp [Page.plain, h3]⟩
  case pushLoadStack =>
    cases hs
    exact ⟨v, h.move (by simp [hpc]) (by simp) (by simpa [WriterRep, State.setPc])⟩
  case pushLoadWloc stack =>
    cases hs
    exact ⟨v, h.move (by simp [hpc]) (by simp) (by simpa [WriterRep, State.setPc])⟩
  case pushStoreNext stack wloc =>
    cases hs
    obtain ⟨h1, h2, rfl⟩ := hw
    rw [kctrlIndex_of_lt h1.1]
    exact ⟨v, h.link h1 (by simp [hpc]) (by simp)
      (by simp [WriterRep, State.setPc, State.setNext, h1, h2])⟩
  case pushLoadWlocAgain stack =>
    cases hs
    exact ⟨v, h.move (by simp [hpc]) (by simp) (by simpa [WriterRep, State.setPc] using hw)⟩
  case pushCas stack wloc =>
    split at hs
    · rename_i hf
      cases hs
      exact h.push hpc hf
    · cases hs
      exact ⟨v, h.move (by simp [hpc]) (by simp)
        (by simp [WriterRep, State.setPc, hw.1, hw.2.1])⟩

end Writer

/-! ## The reader -/

section Reader
variable {s : State} {v : View}

theorem Rep.tail_null (h : Rep s v) : s.next v.tail = kctrlNull :=
  (seg_snoc.1 h.read_links).2

theorem Rep.readerMove (h : Rep s v) {pc : ReaderPc} (hbottom : bottom v pc = bottom v s.reader)
    (hpop : popped pc = popped s.reader) (hr : ReaderRep s.head s.next v pc) :
    Rep (s.setReader pc) v where
  free_links := h.free_links
  read_links := h.read_links
  stack_links := by rw [State.setReader, hbottom]; exact h.stack_links
  free_nodup := h.free_nodup
  chain_nodup := h.chain_nodup
  free_role := h.free_role
  chain_role := h.chain_role
  reader := hr
  writers := fun w => (h.writers w).frame rfl rfl fun _ hp => ⟨hp, rfl, rfl⟩
  history := by
    have : unread v pc = unread v s.reader := by simp only [unread, hpop]
    rw [State.setReader, this]
    exact h.history
  calls := h.calls
  held := by rw [State.setReader, hpop]; exact h.held

/-- `kctrl_reverse_stack` takes the stack as it is; all of it is to be reversed. -/
theorem Rep.revStart (h : Rep s v) (hpc : s.reader = .revLoadStack) :
    ∃ v', Rep (s.setReader (revLoop kctrlNull s.stack)) v' := by
  have hr := h.reader
  simp only [hpc, ReaderRep] at hr
  obtain ⟨⟨htodo, hdone⟩, havail⟩ := hr
  have hl : Links s.next s.stack (v.fresh ++ [v.tail]) kctrlNull := by
    have hs := h.stack_links
    simp only [hpc, bottom] at hs
    exact seg_snoc.2 ⟨hs, h.tail_null⟩
  have hmem : s.stack ∈ v.chain := by
    rw [View.mem_chain]
    cases hf : v.fresh with
    | nil => rw [hf] at hl; simp [hl.1]
    | cons a l => rw [hf] at hl; simp [hl.1]
  have hne : s.stack ≠ kctrlNull := (h.chain_role _ hmem).1.ne
  rw [revLoop, if_neg hne]
  refine ⟨{ v with todo := v.fresh, fresh := [] }, ?_⟩
  have hchain : View.chain { v with todo := v.fresh, fresh := [] } = v.chain := by
    simp [View.chain, htodo, hdone]
  refine
    { free_links := h.free_links, read_links := h.read_links, stack_links := ?_,
      free_nodup := h.free_nodup, chain_nodup := hchain ▸ h.chain_nodup,
      free_role := h.free_role, chain_role := hchain ▸ h.chain_role, reader := ?_,
      writers := fun w => (h.writers w).frame rfl rfl fun _ hp => ⟨hp, rfl, rfl⟩,
      history := ?_, calls := h.calls, held := ?_ }
  · simp [State.setReader, bottom, hdone]
  · refine ⟨hl, by simp [hdone], ?_⟩
    exact havail.imp_right Or.inl
  · have hh := h.history
    rw [hpc] at hh
    simpa [unread, popped, htodo, hdone, State.setReader] using hh
  · have hh := h.held
    rw [hpc] at hh
    exact hh

theorem Rep.revPage (h : Rep s v) {prev stack next a : ℕ} {l : List ℕ}
    (hpc : s.reader = .revStoreNext prev stack next) (htodo : v.todo = a :: l) :
    ∃ v', Rep ((s.setNext (kctrlIndex stack) prev).setReader (revLoop stack next)) v' := by
  have hr := h.reader
  simp only [hpc, ReaderRep, Rev, htodo] at hr
  obtain ⟨⟨⟨ha, hrest⟩, hdone, -⟩, hnext⟩ := hr
  simp only [id] at ha
  subst ha
  have hperm : (View.chain { v with todo := l, done := stack :: v.done }).Perm v.chain := by
    refine List.Perm.append_left _ (List.Perm.cons _ (List.Perm.append_right _ ?_))
    rw [htodo]
    exact List.perm_middle
  have hmemS : stack ∈ v.chain := View.mem_chain.2 (by simp [htodo])
  have hlt := (h.chain_role _ hmemS).1
  have hnd := h.chain_nodup
  simp only [View.chain, htodo] at hnd
  -- the page written is in no other part of the chain
  have hout : stack ∉ v.rd ++ [v.tail] ∧ stack ∉ l ++ [v.tail] ∧ stack ∉ v.done ∧
      stack ∉ v.fresh := by
    simp only [List.nodup_append, List.nodup_cons, List.mem_append, List.mem_cons] at hnd
    simp only [List.mem_append, List.mem_singleton]
    grind
  have hfreeOut : stack ∉ v.free := fun hm => by
    have h1 := (h.free_role _ hm).2
    rw [(h.chain_role _ hmemS).2] at h1
    cases h1
  have hnull : next ≠ kctrlNull := by
    rw [hnext]
    have hm : s.next stack ∈ v.chain := by
      rw [View.mem_chain, htodo]
      cases hl : l with
      | nil => rw [hl] at hrest; simp [hrest.1]
      | cons b m => rw [hl] at hrest; simp [hrest.1]
    exact (h.chain_role _ hm).1.ne
  rw [revLoop, if_neg hnull, kctrlIndex_of_lt hlt]
  refine ⟨{ v with todo := l, done := stack :: v.done }, ?_⟩
  refine
    { free_links := h.free_links.update hfreeOut, read_links := h.read_links.update hout.1,
      stack_links := ?_, free_nodup := h.free_nodup, chain_nodup := hperm.nodup_iff.2 h.chain_nodup,
      free_role := h.free_role, chain_role := fun p hp => h.chain_role p (hperm.mem_iff.1 hp),
      reader := ?_, writers := ?_, history := ?_, calls := h.calls, held := ?_ }
  · have hl := h.stack_links
    rw [hpc] at hl
    have hb : v.done.getLastD stack = (stack :: v.done).getLastD next := by
      cases v.done <;> rfl
    simp only [State.setReader, bottom] at hl ⊢
    rw [← hb]
    exact hl.update hout.2.2.2
  · refine ⟨?_, ?_, Or.inr (Or.inr (by simp))⟩
    · rw [hnext]
      exact hrest.update hout.2.1
    · refine ⟨rfl, ?_⟩
      have : (s.setNext stack prev).next stack = prev := Function.update_self _ _ _
      simp only [State.setReader, this]
      exact hdone.update hout.2.2.1
  · intro w
    refine (h.writers w).frame rfl rfl fun p hp => ⟨hp, ?_, rfl⟩
    refine Function.update_of_ne ?_ _ _
    rintro rfl
    rw [(h.chain_role _ hmemS).2] at hp
    cases hp
  · have hh := h.history
    rw [hpc] at hh
    simpa [unread, popped, htodo, State.setReader, State.setNext] using hh
  · have hh := h.held
    rw [hpc] at hh
    exact hh

/-- The sentinel is reached: what was reversed follows the list from `head`, and its last page,
the top of the stack when the reversal began, is the new sentinel. -/
theorem Rep.revEnd (h : Rep s v) {prev stack next : ℕ}
    (hpc : s.reader = .revStoreNext prev stack next) (htodo : v.todo = []) :
    ∃ v', Rep ((s.setNext (kctrlIndex stack) prev).setReader (revLoop stack next)) v' := by
  have hr := h.reader
  simp only [hpc, ReaderRep, Rev, htodo, List.nil_append, seg_cons, id, seg_nil] at hr
  obtain ⟨⟨⟨rfl, hnull⟩, hdone, havail⟩, hnext⟩ := hr
  have hmemS : v.tail ∈ v.chain := View.mem_chain.2 (by simp)
  have hlt := (h.chain_role _ hmemS).1
  have hnd := h.chain_nodup
  simp only [View.chain, htodo, List.nil_append] at hnd
  have hout : v.tail ∉ v.rd ∧ v.tail ∉ v.done ∧ v.tail ∉ v.fresh := by
    simp only [List.nodup_append, List.nodup_cons, List.mem_append, List.mem_cons] at hnd
    grind
  have hfreeOut : v.tail ∉ v.free := fun hm => by
    have h1 := (h.free_role _ hm).2
    rw [(h.chain_role _ hmemS).2] at h1
    cases h1
  have hwriters : ∀ (v' : View), v'.role = v.role → ∀ w,
      WriterRep ((s.setNext v.tail prev).setReader .nextLoadHead) v' w := by
    intro v' hv' w
    refine (h.writers w).frame rfl rfl fun p hp => ⟨by rw [hv']; exact hp, ?_, rfl⟩
    refine Function.update_of_ne ?_ _ _
    rintro rfl
    rw [(h.chain_role _ hmemS).2] at hp
    cases hp
  have hself : (s.setNext v.tail prev).next v.tail = prev := Function.update_self _ _ _
  have hrd : Links (Function.update s.next v.tail prev) s.head v.rd v.tail :=
    (seg_snoc.1 h.read_links).1.update hout.1
  have hfr := h.stack_links.update (v := prev) hout.2.2
  rw [revLoop, if_pos (hnext.trans hnull), kctrlIndex_of_lt hlt]
  have hh := h.history
  have hheld := h.held
  rw [hpc] at hh hheld hfr
  rcases List.eq_nil_or_concat v.done with hnil | ⟨d, x, hd⟩
  · -- nothing was above the sentinel
    rw [hnil] at hdone
    refine ⟨v, ?_⟩
    refine
      { free_links := h.free_links.update hfreeOut, read_links := ?_, stack_links := ?_,
        free_nodup := h.free_nodup, chain_nodup := h.chain_nodup, free_role := h.free_role,
        chain_role := h.chain_role, reader := ?_, writers := hwriters v rfl, history := ?_,
        calls := h.calls, held := hheld }
    · exact seg_snoc.2 ⟨hrd, hself.trans hdone⟩
    · simp only [bottom, hnil, List.getLastD_nil] at hfr
      exact hfr
    · exact ⟨⟨htodo, hnil⟩, by simpa [htodo, hnil] using havail⟩
    · simpa [unread, popped, State.setReader, State.setNext] using hh
  · rw [List.concat_eq_append] at hd
    refine ⟨{ v with rd := v.rd ++ v.tail :: d, tail := x, done := [] }, ?_⟩
    have hchain : View.chain { v with rd := v.rd ++ v.tail :: d, tail := x, done := [] } =
        v.chain := by simp [View.chain, htodo, hd]
    have hdl : Links (Function.update s.next v.tail prev) prev v.done kctrlNull :=
      hdone.update hout.2.1
    refine
      { free_links := h.free_links.update hfreeOut, read_links := ?_, stack_links := ?_,
        free_nodup := h.free_nodup, chain_nodup := hchain ▸ h.chain_nodup,
        free_role := h.free_role, chain_role := hchain ▸ h.chain_role, reader := ?_,
        writers := hwriters _ rfl, history := ?_, calls := h.calls, held := hheld }
    · have hsplit : v.rd ++ v.tail :: d ++ [x] = v.rd ++ v.tail :: v.done := by simp [hd]
      rw [hsplit]
      refine seg_append.2 ⟨_, hrd, rfl, ?_⟩
      have : ((s.setNext v.tail prev).setReader .nextLoadHead).next v.tail = prev := hself
      rw [this]
      exact hdl
    · simp only [bottom, hd, List.getLastD_concat] at hfr
      exact hfr
    · exact ⟨⟨htodo, rfl⟩, by simp⟩
    · cases hv : v.rd <;>
        simpa [unread, popped, htodo, hd, hv, State.setReader, State.setNext] using hh

/-- `kctrl_next_generic` moves `head` to the next page; the old one is the reader's to free. -/
theorem Rep.pop (h : Rep s v) {head next : ℕ} (hpc : s.reader = .nextStoreHead head next) :
    ∃ v', Rep ({ s with head := next }.setReader (.freeLoadFree head)) v' := by
  have hr := h.reader
  simp only [hpc, ReaderRep] at hr
  obtain ⟨⟨htodo, hdone⟩, hrd, rfl, rfl⟩ := hr
  obtain ⟨a, l, hal⟩ := List.exists_cons_of_ne_nil hrd
  have hread := h.read_links
  rw [hal] at hread
  obtain ⟨ha, hread⟩ := hread
  simp only [id] at ha
  have hrole := h.chain_role _ h.head_mem
  have hnd := h.chain_nodup
  simp only [View.chain, hal, List.cons_append, List.nodup_cons] at hnd
  have hoff : ∀ p, v.role p ≠ .chain → Function.update v.role s.head .transit p = v.role p :=
    fun p hp => Function.update_of_ne (by rintro rfl; exact hp hrole.2) _ _
  have hkeep : ∀ p, p ∈ l ++ v.tail :: (v.todo ++ v.done ++ v.fresh) → p ∈ v.chain ∧
      Function.update v.role s.head .transit p = v.role p := fun p hp => by
    refine ⟨by simp only [View.chain, hal, List.cons_append]; exact List.mem_cons_of_mem _ hp, ?_⟩
    exact Function.update_of_ne (by rintro rfl; exact hnd.1 (ha ▸ hp)) _ _
  refine ⟨{ v with role := Function.update v.role s.head .transit, rd := l }, ?_⟩
  refine
    { free_links := h.free_links, read_links := by rw [← ha] at hread; exact hread,
      stack_links := ?_, free_nodup := h.free_nodup, chain_nodup := hnd.2, free_role := ?_,
      chain_role := ?_,
      reader := ⟨⟨htodo, hdone⟩, hrole.1, Function.update_self _ _ _⟩, writers := ?_,
      history := ?_, calls := h.calls, held := fun hp => by cases hp }
  · have hs := h.stack_links
    rw [hpc] at hs
    exact hs
  · intro p hp
    have hp' := h.free_role p hp
    exact ⟨hp'.1, (hoff p (by rw [hp'.2]; simp)).trans hp'.2⟩
  · intro p hp
    obtain ⟨h1, h2⟩ := hkeep p hp
    have hp' := h.chain_role p h1
    exact ⟨hp'.1, h2.trans hp'.2⟩
  · intro w
    refine (h.writers w).frame rfl rfl fun p hp => ⟨?_, rfl, rfl⟩
    exact (hoff p (by rw [hp]; simp)).trans hp
  · have hh := h.history
    rw [hpc] at hh
    simpa [unread, popped, hal, State.setReader] using hh

/-- The old head links to the free list it is about to be pushed on. -/
theorem Rep.freeLink (h : Rep s v) {head free : ℕ} (hpc : s.reader = .freeStoreNext head free) :
    Rep ((s.setNext (kctrlIndex head) free).setReader (.freeCas head free)) v := by
  have hr := h.reader
  simp only [hpc, ReaderRep] at hr
  obtain ⟨hstill, hlt, hrole⟩ := hr
  rw [kctrlIndex_of_lt hlt]
  have hchain : head ∉ v.chain := fun hm => by
    have := (h.chain_role _ hm).2
    rw [hrole] at this
    cases this
  have hfree : head ∉ v.free := fun hm => by
    have := (h.free_role _ hm).2
    rw [hrole] at this
    cases this
  have hh := h.history
  have hs := h.stack_links
  rw [hpc] at hh hs
  refine
    { free_links := h.free_links.update hfree,
      read_links := h.read_links.update fun hm => hchain (View.mem_chain.2 (Or.inl hm)),
      stack_links := hs.update fun hm => hchain (View.mem_chain.2 (by tauto)),
      free_nodup := h.free_nodup, chain_nodup := h.chain_nodup, free_role := h.free_role,
      chain_role := h.chain_role, reader := ⟨hstill, hlt, hrole, Function.update_self _ _ _⟩,
      writers := ?_, history := hh, calls := h.calls, held := fun hp => by cases hp }
  intro w
  refine (h.writers w).frame rfl rfl fun p hp => ⟨hp, ?_, rfl⟩
  refine Function.update_of_ne ?_ _ _
  rintro rfl
  rw [hrole] at hp
  cases hp

theorem Rep.freePush (h : Rep s v) {head free : ℕ} (hpc : s.reader = .freeCas head free)
    (hfree : s.free = free) : ∃ v', Rep ({ s with free := head }.setReader .nextReturn) v' := by
  have hr := h.reader
  simp only [hpc, ReaderRep] at hr
  obtain ⟨hstill, hlt, hrole, hnext⟩ := hr
  have hoff : ∀ p, v.role p ≠ .transit → Function.update v.role head .free p = v.role p :=
    fun p hp => Function.update_of_ne (by rintro rfl; exact hp hrole) _ _
  have hnotin : head ∉ v.free := fun hm => by
    have := (h.free_role _ hm).2
    rw [hrole] at this
    cases this
  have hh := h.history
  have hs := h.stack_links
  rw [hpc] at hh hs
  refine ⟨{ v with role := Function.update v.role head .free, free := head :: v.free }, ?_⟩
  refine
    { free_links := ⟨rfl, (hnext.trans hfree.symm) ▸ h.free_links⟩,
      read_links := h.read_links, stack_links := hs,
      free_nodup := List.nodup_cons.2 ⟨hnotin, h.free_nodup⟩, chain_nodup := h.chain_nodup,
      free_role := ?_, chain_role := ?_, reader := hstill, writers := ?_, history := hh,
      calls := h.calls, held := fun hp => by cases hp }
  · intro p hp
    rcases List.mem_cons.1 hp with rfl | hp
    · exact ⟨hlt, Function.update_self _ _ _⟩
    · have hp' := h.free_role p hp
      exact ⟨hp'.1, (hoff p (by rw [hp'.2]; simp)).trans hp'.2⟩
  · intro p hp
    have hp' := h.chain_role p hp
    exact ⟨hp'.1, (hoff p (by rw [hp'.2]; simp)).trans hp'.2⟩
  · intro w
    refine (h.writers w).frame rfl rfl fun p hp => ⟨?_, rfl, rfl⟩
    exact (hoff p (by rw [hp]; simp)).trans hp

/-- `kctrl_next_generic` returns the page at `head`, the oldest message not yet returned. -/
theorem Rep.ret (h : Rep s v) (hpc : s.reader = .nextReturn) :
    Rep ({ s with
      returned := s.returned ++ [(s.page (kctrlIndex s.head)).plain] }.setReader .idle) v := by
  have hr := h.reader
  simp only [hpc, ReaderRep] at hr
  have hh := h.history
  have hs := h.stack_links
  rw [hpc] at hh hs
  have hhead : (v.rd ++ [v.tail]).head? = some s.head := by
    have hl := h.read_links
    cases hrd : v.rd with
    | nil => rw [hrd] at hl; simp [hl.1]
    | cons a l => rw [hrd] at hl; simp [hl.1]
  rw [kctrlIndex_of_lt (h.chain_role _ h.head_mem).1]
  refine
    { free_links := h.free_links, read_links := h.read_links, stack_links := hs,
      free_nodup := h.free_nodup, chain_nodup := h.chain_nodup, free_role := h.free_role,
      chain_role := h.chain_role, reader := hr,
      writers := fun w => (h.writers w).frame rfl rfl fun _ hp => ⟨hp, rfl, rfl⟩,
      history := ?_, calls := h.calls, held := ?_ }
  · obtain ⟨l, hl⟩ : ∃ l, v.rd ++ [v.tail] = s.head :: l := by
      cases hc : v.rd ++ [v.tail] with
      | nil => simp at hc
      | cons a l => rw [hc] at hhead; exact ⟨l, by rw [Option.some.inj hhead]⟩
    simpa [unread, popped, hl, State.setReader] using hh
  · intro _ m hm
    simpa [State.setReader] using hm

theorem rep_readerStep (h : Rep s v) : ∃ v', Rep (readerStep s) v' := by
  have hr := h.reader
  have hhead := kctrlIndex_of_lt (h.chain_role _ h.head_mem).1
  cases hpc : s.reader <;> simp only [readerStep, hpc, ReaderRep] at hr ⊢
  case idle =>
    exact ⟨v, h.readerMove (by rw [hpc]; rfl) (by rw [hpc]; rfl) ⟨hr, rfl⟩⟩
  case availHeadNext x =>
    obtain ⟨hstill, rfl⟩ := hr
    rw [hhead]
    split
    · exact ⟨v, h.readerMove (by rw [hpc]; rfl) (by rw [hpc]; rfl) hstill⟩
    · rename_i hn
      refine ⟨v, h.readerMove (by rw [hpc]; rfl) (by rw [hpc]; rfl) ⟨hstill, Or.inl ?_⟩⟩
      intro hnil
      have hl := h.read_links
      rw [hnil] at hl
      have he : s.head = v.tail := hl.1
      exact hn (by rw [he]; exact hl.2)
  case availLoadStack =>
    refine ⟨v, h.readerMove (by rw [hpc]; rfl) (by rw [hpc]; rfl) ⟨hr, ?_⟩⟩
    have hs := h.stack_links
    simp only [hpc, bottom] at hs
    cases hf : v.fresh with
    | nil => rw [hf] at hs; exact Or.inl hs
    | cons a l => rw [hf] at hs; exact Or.inr (by simp [hs.1])
  case availStackNext x =>
    obtain ⟨hstill, hx⟩ := hr
    have hmem : x ∈ v.chain := View.mem_chain.2 (by
      rcases hx with rfl | hx
      · simp
      · tauto)
    rw [kctrlIndex_of_lt (h.chain_role _ hmem).1]
    split
    · exact ⟨v, h.readerMove (by rw [hpc]; rfl) (by rw [hpc]; rfl) hstill⟩
    · rename_i hn
      refine ⟨v, h.readerMove (by rw [hpc]; rfl) (by rw [hpc]; rfl) ⟨hstill, Or.inr ?_⟩⟩
      rcases hx with rfl | hx
      · exact absurd h.tail_null hn
      · exact List.ne_nil_of_mem hx
  case revLoadStack => exact h.revStart hpc
  case revLoadNext prev stack =>
    have hmem : stack ∈ v.chain := by
      obtain ⟨hl, -⟩ := hr
      rw [View.mem_chain]
      cases htd : v.todo with
      | nil => rw [htd] at hl; simp [hl.1]
      | cons a l => rw [htd] at hl; simp [hl.1]
    rw [kctrlIndex_of_lt (h.chain_role _ hmem).1]
    exact ⟨v, h.readerMove (by rw [hpc]; rfl) (by rw [hpc]; rfl) ⟨hr, rfl⟩⟩
  case revStoreNext prev stack next =>
    cases htodo : v.todo with
    | nil => exact h.revEnd hpc htodo
    | cons a l => exact h.revPage hpc htodo
  case nextLoadHead =>
    exact ⟨v, h.readerMove (by rw [hpc]; rfl) (by rw [hpc]; rfl) ⟨hr.1, hr.2, rfl⟩⟩
  case nextLoadHeadAgain x =>
    exact ⟨v, h.readerMove (by rw [hpc]; rfl) (by rw [hpc]; rfl) ⟨hr.1, hr.2.1, hr.2.2, rfl⟩⟩
  case nextLoadNext x index =>
    obtain ⟨h1, h2, h3, rfl⟩ := hr
    rw [hhead]
    exact ⟨v, h.readerMove (by rw [hpc]; rfl) (by rw [hpc]; rfl) ⟨h1, h2, h3, rfl⟩⟩
  case nextStoreHead x next => exact h.pop hpc
  case freeLoadFree x =>
    exact ⟨v, h.readerMove (by rw [hpc]; rfl) (by rw [hpc]; rfl) hr⟩
  case freeStoreNext x free => exact ⟨v, h.freeLink hpc⟩
  case freeCas x free =>
    split
    · rename_i hf
      exact h.freePush hpc hf
    · exact ⟨v, h.readerMove (by rw [hpc]; rfl) (by rw [hpc]; rfl) ⟨hr.1, hr.2.1, hr.2.2.1⟩⟩
  case nextReturn => exact ⟨v, h.ret hpc⟩

end Reader

/-! ## Runs -/

/-- The view `kctrl_init_control` builds. -/
def initView : View where
  role := fun p => if p = 0 then .chain else .free
  free := List.range' 1 (kctrlNpages - 1)
  rd := []
  tail := 0
  todo := []
  done := []
  fresh := []

theorem init_links (a k : ℕ) (ha : 0 < a) (hk : a + k = kctrlNpages) :
    Links kctrlInitControl.next a (List.range' a k) kctrlNull := by
  induction k generalizing a with
  | zero => simpa [kctrlNull] using hk
  | succ k ih =>
    refine ⟨rfl, ?_⟩
    have hnext : kctrlInitControl.next a = a + 1 := by
      have h0 : a ≠ 0 := by omega
      simp only [kctrlInitControl, h0, false_or]
      split
      · simp only [kctrlNull]; omega
      · rfl
    rw [hnext]
    exact ih (a + 1) (by omega) (by omega)

theorem rep_init : Rep kctrlInitControl initView where
  free_links := init_links 1 (kctrlNpages - 1) (by omega) (by simp [kctrlNpages])
  read_links := ⟨rfl, rfl⟩
  stack_links := rfl
  free_nodup := List.nodup_range'
  chain_nodup := by simp [View.chain, initView]
  free_role := by
    intro p hp
    have hp' := List.mem_range'_1.1 hp
    refine ⟨by simp only [kctrlNpages] at hp' ⊢; omega, ?_⟩
    have : p ≠ 0 := by omega
    simp [initView, this]
  chain_role := by
    intro p hp
    simp only [View.chain, initView, List.nil_append, List.mem_singleton] at hp
    subst hp
    exact ⟨by simp [kctrlNpages], rfl⟩
  reader := ⟨rfl, rfl⟩
  writers := fun w => trivial
  history := rfl
  calls := fun w => rfl
  held := fun _ m hm => by simp [kctrlInitControl] at hm

theorem rep_step {s s' : State} {a : Act} (h : ∃ v, Rep s v) (hok : noAba s a)
    (hs : step s a = some s') : ∃ v, Rep s' v := by
  obtain ⟨v, h⟩ := h
  cases a with
  | call w data =>
    simp only [step, callStep] at hs
    split at hs
    · rename_i hpc
      cases hs
      exact ⟨v, h.call hpc⟩
    · cases hs
  | writer w => exact rep_writerStep h hok hs
  | reader =>
    cases hs
    exact rep_readerStep h

theorem rep_run {s : State} (h : ReachIf ring (fun s a => noAba s a) s) : ∃ v, Rep s v :=
  ReachIf.invariant (I := fun s => ∃ v, Rep s v) ⟨initView, rep_init⟩
    (fun _ _ _ hi hok hs => rep_step hi hok hs) h

end Netp.Kring.Ctrl
