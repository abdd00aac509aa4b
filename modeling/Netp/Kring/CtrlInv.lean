import Netp.Kring.Ctrl
import Netp.Lib.Chain
import Mathlib.Data.List.Basic
import Mathlib.Data.List.Nodup
import Mathlib.Tactic

/-! # What the control ring keeps

A `View` says what the links mean: the free list, the list from `head`, the part of the stack the
reader has still to reverse, the part it has reversed, and what was pushed since. Every page has
one `Role`, so that two lists or two parties cannot share a page. `Rep s v` says that the shared
area of `s` represents `v`.

The one step that can break it is the compare-and-swap of `kctrl_allocate` when the free list has
changed and its first page is the same again: `noAba` excludes that step and no other.
-/

namespace Netp.Kring.Ctrl
open Netp.Lib
set_option autoImplicit false

theorem kctrlIndex_of_lt {p : ℕ} (h : p < kctrlNpages) : kctrlIndex p = p := by
  have : (0x7ff : ℕ) = 2 ^ 11 - 1 := by norm_num
  rw [kctrlIndex, this, Nat.and_two_pow_sub_one_eq_mod]
  exact Nat.mod_eq_of_lt (by simpa [kctrlNpages] using h)

/-- Who has a page. -/
inductive Role
  | free
  | chain
  | writer (w : WriterId)
  | transit
  deriving DecidableEq

structure View where
  role : ℕ → Role
  /-- The free list, first page first. -/
  free : List ℕ
  /-- The list from `head` is `rd ++ [tail]`. -/
  rd : List ℕ
  tail : ℕ
  /-- While the stack is reversed: what is left to reverse above `tail`, top first. -/
  todo : List ℕ
  /-- While the stack is reversed: what has been reversed, in link order. -/
  done : List ℕ
  /-- Pushed and not seen by a reversal, top first. -/
  fresh : List ℕ

namespace View

/-- The pages of messages and the sentinel. -/
def chain (v : View) : List ℕ := v.rd ++ v.tail :: (v.todo ++ v.done ++ v.fresh)

/-- No reversal is going on. -/
def Still (v : View) : Prop := v.todo = [] ∧ v.done = []

end View

abbrev Links (next : ℕ → ℕ) : ℕ → List ℕ → ℕ → Prop := Seg id next

/-- The reversal at `stack`, with `prev` reversed last. -/
def Rev (next : ℕ → ℕ) (v : View) (prev stack : ℕ) : Prop :=
  Links next stack (v.todo ++ [v.tail]) kctrlNull ∧ Links next prev v.done kctrlNull ∧
    (v.rd ≠ [] ∨ v.todo ≠ [] ∨ v.done ≠ [])

/-- The page under the fresh part of the stack. -/
def bottom (v : View) : ReaderPc → ℕ
  | .revLoadNext _ stack | .revStoreNext _ stack _ => v.done.getLastD stack
  | _ => v.tail

/-- `kctrl_next_generic` has moved `head` and has not returned yet. -/
def popped : ReaderPc → Bool
  | .freeLoadFree _ | .freeStoreNext _ _ | .freeCas _ _ | .nextReturn => true
  | _ => false

/-- The pages of the messages not yet returned, oldest first. -/
def unread (v : View) (pc : ReaderPc) : List ℕ :=
  (if popped pc then v.rd ++ [v.tail] else (v.rd ++ [v.tail]).tail) ++
    (v.todo.reverse ++ v.done ++ v.fresh.reverse)

/-- What the reader's local variables mean. -/
def ReaderRep (head : ℕ) (next : ℕ → ℕ) (v : View) : ReaderPc → Prop
  | .idle | .availLoadStack | .nextReturn => v.Still
  | .availHeadNext h => v.Still ∧ h = head
  | .availStackNext stack => v.Still ∧ (stack = v.tail ∨ stack ∈ v.fresh)
  | .revLoadStack => v.Still ∧ (v.rd ≠ [] ∨ v.fresh ≠ [])
  | .revLoadNext prev stack => Rev next v prev stack
  | .revStoreNext prev stack n => Rev next v prev stack ∧ n = next stack
  | .nextLoadHead => v.Still ∧ v.rd ≠ []
  | .nextLoadHeadAgain h => v.Still ∧ v.rd ≠ [] ∧ h = head
  | .nextLoadNext h index => v.Still ∧ v.rd ≠ [] ∧ h = head ∧ index = head
  | .nextStoreHead h n => v.Still ∧ v.rd ≠ [] ∧ h = head ∧ n = next head
  | .freeLoadFree h | .freeStoreNext h _ => v.Still ∧ h < kctrlNpages ∧ v.role h = .transit
  | .freeCas h free => v.Still ∧ h < kctrlNpages ∧ v.role h = .transit ∧ next h = free

/-- Page `p` is writer `w`'s. -/
def Has (v : View) (w : WriterId) (p : ℕ) : Prop := p < kctrlNpages ∧ v.role p = .writer w

/-- What a writer's local variables mean. -/
def WriterRep (s : State) (v : View) (w : WriterId) : Prop :=
  match (s.writer w).pc with
  | .idle | .allocLoadFree => True
  | .allocLoadNext free | .allocCas free _ => free ≠ kctrlNull
  | .allocStoreWloc p => Has v w p
  | .allocClearNext p | .writeLen p => Has v w p ∧ s.wloc w = p
  | .writeBytes p => Has v w p ∧ s.wloc w = p ∧ (s.page p).len = (s.writer w).data.length
  | .pushLoadStack | .pushLoadWloc _ =>
      Has v w (s.wloc w) ∧ (s.page (s.wloc w)).plain = (s.writer w).data
  | .pushStoreNext _ wloc =>
      Has v w (s.wloc w) ∧ (s.page (s.wloc w)).plain = (s.writer w).data ∧ wloc = s.wloc w
  | .pushLoadWlocAgain stack =>
      Has v w (s.wloc w) ∧ (s.page (s.wloc w)).plain = (s.writer w).data ∧
        s.next (s.wloc w) = stack
  | .pushCas stack wloc =>
      Has v w (s.wloc w) ∧ (s.page (s.wloc w)).plain = (s.writer w).data ∧
        s.next (s.wloc w) = stack ∧ wloc = s.wloc w

/-- The shared area represents the view. -/
structure Rep (s : State) (v : View) : Prop where
  free_links : Links s.next s.free v.free kctrlNull
  read_links : Links s.next s.head (v.rd ++ [v.tail]) kctrlNull
  stack_links : Links s.next s.stack v.fresh (bottom v s.reader)
  free_nodup : v.free.Nodup
  chain_nodup : v.chain.Nodup
  free_role : ∀ p ∈ v.free, p < kctrlNpages ∧ v.role p = .free
  chain_role : ∀ p ∈ v.chain, p < kctrlNpages ∧ v.role p = .chain
  reader : ReaderRep s.head s.next v s.reader
  writers : ∀ w, WriterRep s v w
  history : s.pushed.map Prod.snd =
    s.returned ++ (unread v s.reader).map fun p => (s.page p).plain
  calls : ∀ w, ((s.pushed.filter fun m => m.1 = w).map Prod.snd) ++ inCall s w = s.calls w
  held : popped s.reader = false → ∀ m, s.returned.getLast? = some m →
    (s.page s.head).plain = m

/-- No writer swings `head->free` from a page whose link has changed since the writer loaded it. -/
def noAba (s : State) : Act → Bool
  | .writer w =>
      match (s.writer w).pc with
      | .allocCas free next => s.free != free || s.next free == next
      | _ => true
  | _ => true

theorem noAba_cas {s : State} {w : WriterId} {free next : ℕ} (h : noAba s (.writer w))
    (hpc : (s.writer w).pc = .allocCas free next) (hfree : s.free = free) :
    s.next free = next := by
  simpa [noAba, hpc, hfree] using h

/-! ## Frame lemmas -/

namespace View

theorem mem_chain {v : View} {p : ℕ} :
    p ∈ v.chain ↔ p ∈ v.rd ++ [v.tail] ∨ p ∈ v.todo ∨ p ∈ v.done ∨ p ∈ v.fresh := by
  simp only [chain, List.mem_append, List.mem_cons, List.not_mem_nil, or_false]
  tauto

theorem unread_subset {v : View} {pc : ReaderPc} {p : ℕ} (h : p ∈ unread v pc) : p ∈ v.chain := by
  rw [mem_chain]
  simp only [unread, List.mem_append, List.mem_reverse] at h
  rcases h with h | h
  · refine Or.inl ?_
    split at h
    · exact h
    · exact List.mem_of_mem_tail h
  · tauto

end View

theorem WriterRep.frame {s s' : State} {v v' : View} {w : WriterId} (h : WriterRep s v w)
    (hw : s'.writer w = s.writer w) (hl : s'.wloc w = s.wloc w)
    (hp : ∀ p, v.role p = .writer w →
      v'.role p = .writer w ∧ s'.next p = s.next p ∧ s'.page p = s.page p) :
    WriterRep s' v' w := by
  have hhas : ∀ p, Has v w p → Has v' w p ∧ s'.next p = s.next p ∧ s'.page p = s.page p :=
    fun p h => ⟨⟨h.1, (hp p h.2).1⟩, (hp p h.2).2⟩
  cases hpc : (s.writer w).pc <;> simp only [WriterRep, hpc, hw, hl] at h ⊢
  case allocLoadNext => exact h
  case allocCas => exact h
  case allocStoreWloc p => exact (hhas p h).1
  case allocClearNext p => exact ⟨(hhas p h.1).1, h.2⟩
  case writeLen p => exact ⟨(hhas p h.1).1, h.2⟩
  case writeBytes p =>
    obtain ⟨h1, -, h3⟩ := hhas p h.1
    rw [h3]
    exact ⟨h1, h.2⟩
  all_goals
    obtain ⟨h1, h2, h3⟩ := hhas _ h.1
    simp only [h2, h3]
    exact ⟨h1, h.2⟩

/-- The reader's facts survive a step of a writer, which may only add to the fresh pages. -/
theorem ReaderRep.frame {head : ℕ} {next next' : ℕ → ℕ} {v v' : View} {pc : ReaderPc}
    (h : ReaderRep head next v pc) (hrd : v'.rd = v.rd) (htail : v'.tail = v.tail)
    (htodo : v'.todo = v.todo) (hdone : v'.done = v.done) (hfresh : v.fresh ⊆ v'.fresh)
    (hhead : head ∈ v.chain) (hchain : ∀ p ∈ v.chain, next' p = next p)
    (htransit : ∀ p, v.role p = .transit → v'.role p = .transit ∧ next' p = next p) :
    ReaderRep head next' v' pc := by
  have hstill : v.Still → v'.Still := fun hs => ⟨htodo ▸ hs.1, hdone ▸ hs.2⟩
  have hne : v.fresh ≠ [] → v'.fresh ≠ [] := fun hn he => by
    obtain ⟨a, ha⟩ := List.exists_mem_of_ne_nil _ hn
    exact absurd (hfresh ha) (by simp [he])
  have hrev : ∀ prev stack, Rev next v prev stack → Rev next' v' prev stack := by
    rintro prev stack ⟨h1, h2, h3⟩
    refine ⟨?_, ?_, by rw [hrd, htodo, hdone]; exact h3⟩
    · rw [htodo, htail]
      refine h1.congr fun a ha => hchain a (View.mem_chain.2 ?_)
      simp only [List.mem_append, List.mem_singleton] at ha ⊢
      tauto
    · rw [hdone]
      exact h2.congr fun a ha => hchain a (View.mem_chain.2 (by tauto))
  cases pc <;> simp only [ReaderRep, hrd, htail] at h ⊢
  case revLoadNext => exact hrev _ _ h
  case revStoreNext prev stack n =>
    have hs : stack ∈ v.chain := by
      obtain ⟨⟨h1, -⟩, -⟩ := h
      rw [View.mem_chain]
      cases htd : v.todo with
      | nil => rw [htd] at h1; exact Or.inl (by simp [h1.1])
      | cons a l => rw [htd] at h1; exact Or.inr (Or.inl (by simp [h1.1]))
    exact ⟨hrev _ _ h.1, h.2.trans (hchain _ hs).symm⟩
  case availStackNext => exact ⟨hstill h.1, h.2.imp_right fun hm => hfresh hm⟩
  case revLoadStack => exact ⟨hstill h.1, h.2.imp_right hne⟩
  case nextStoreHead => exact ⟨hstill h.1, h.2.1, h.2.2.1, h.2.2.2.trans (hchain _ hhead).symm⟩
  case freeLoadFree => exact ⟨hstill h.1, h.2.1, (htransit _ h.2.2).1⟩
  case freeStoreNext => exact ⟨hstill h.1, h.2.1, (htransit _ h.2.2).1⟩
  case freeCas =>
    exact ⟨hstill h.1, h.2.1, (htransit _ h.2.2.1).1, (htransit _ h.2.2.1).2.trans h.2.2.2⟩
  case idle => exact hstill h
  case availLoadStack => exact hstill h
  case nextReturn => exact hstill h
  all_goals exact ⟨hstill h.1, h.2⟩

theorem inCall_of_ne {s : State} {w : WriterId} (h : (s.writer w).pc ≠ .idle) :
    inCall s w = [(s.writer w).data] := by
  cases hpc : (s.writer w).pc <;> simp_all [inCall]

theorem inCall_congr {s s' : State} {w : WriterId} (h : s'.writer w = s.writer w) :
    inCall s' w = inCall s w := by
  simp only [inCall, h]

theorem Rep.head_mem {s : State} {v : View} (h : Rep s v) : s.head ∈ v.chain := by
  rw [View.mem_chain]
  have hl := h.read_links
  refine Or.inl ?_
  cases hrd : v.rd with
  | nil => rw [hrd] at hl; simp [hl.1]
  | cons a l => rw [hrd] at hl; simp [hl.1]

/-- A step of writer `w` that touches only pages of its own keeps what the view says; what it
says about `w` itself is left to show. -/
theorem Rep.own {s s' : State} {v : View} (w : WriterId) (h : Rep s v)
    (hhead : s'.head = s.head) (hfree : s'.free = s.free) (hstack : s'.stack = s.stack)
    (hreader : s'.reader = s.reader) (hpushed : s'.pushed = s.pushed)
    (hreturned : s'.returned = s.returned) (hcalls : s'.calls = s.calls)
    (hnext : ∀ p, v.role p ≠ .writer w → s'.next p = s.next p)
    (hpage : ∀ p, v.role p ≠ .writer w → s'.page p = s.page p)
    (hothers : ∀ u, u ≠ w → s'.writer u = s.writer u ∧ s'.wloc u = s.wloc u)
    (hold : (s.writer w).pc ≠ .idle) (hnew : (s'.writer w).pc ≠ .idle)
    (hdata : (s'.writer w).data = (s.writer w).data) (hw : WriterRep s' v w) : Rep s' v := by
  have hchain : ∀ p ∈ v.chain, s'.next p = s.next p ∧ s'.page p = s.page p := fun p hp => by
    have hr : v.role p ≠ .writer w := by rw [(h.chain_role p hp).2]; simp
    exact ⟨hnext p hr, hpage p hr⟩
  have hin : ∀ u, inCall s' u = inCall s u := fun u => by
    by_cases hu : u = w
    · rw [hu, inCall_of_ne hold, inCall_of_ne hnew, hdata]
    · exact inCall_congr (hothers u hu).1
  refine
    { free_links := ?_, read_links := ?_, stack_links := ?_, free_nodup := h.free_nodup,
      chain_nodup := h.chain_nodup, free_role := h.free_role, chain_role := h.chain_role,
      reader := ?_, writers := ?_, history := ?_, calls := ?_, held := ?_ }
  · rw [hfree]
    exact h.free_links.congr fun p hp => hnext p (by rw [(h.free_role p hp).2]; simp)
  · rw [hhead]
    exact h.read_links.congr fun p hp => (hchain p (View.mem_chain.2 (Or.inl hp))).1
  · rw [hstack, hreader]
    exact h.stack_links.congr fun p hp => (hchain p (View.mem_chain.2 (by tauto))).1
  · rw [hhead, hreader]
    refine h.reader.frame rfl rfl rfl rfl (fun _ hp => hp) h.head_mem
      (fun p hp => (hchain p hp).1) (fun p hp => ⟨hp, hnext p (by rw [hp]; simp)⟩)
  · intro u
    by_cases hu : u = w
    · exact hu ▸ hw
    · obtain ⟨h1, h2⟩ := hothers u hu
      refine (h.writers u).frame h1 h2 fun p hp => ?_
      have hr : v.role p ≠ .writer w := by
        rw [hp]
        exact fun e => hu (Role.writer.inj e)
      exact ⟨hp, hnext p hr, hpage p hr⟩
  · rw [hpushed, hreturned, hreader, h.history]
    congr 1
    exact List.map_congr_left fun p hp => by rw [(hchain p (View.unread_subset hp)).2]
  · intro u
    rw [hpushed, hcalls, hin u]
    exact h.calls u
  · intro hp m hm
    rw [hreader] at hp
    rw [hreturned] at hm
    rw [hhead, (hchain _ h.head_mem).2]
    exact h.held hp m hm

end Netp.Kring.Ctrl
