import Netp.Kring.CtrlInv
import Netp.Lib.Refine
import Mathlib.Data.List.Basic
import Mathlib.Data.List.Perm.Basic
import Mathlib.Tactic

/-! # The control ring as a queue

Here each call of `kctrl.h` runs without interruption, so a call is a function on the shared area.
`queue` takes whole calls as its steps; `fifo` is a bounded queue that keeps the message it gave out
last. The relation between them is carried by a `Partition` of the descriptors: the free list, the
list from `head`, and the part of the stack above the last page of that list.
-/

namespace Netp.Kring.Ctrl
open Netp.Lib
set_option autoImplicit false

/-- The memory shared through the ring. -/
structure Area where
  head : ℕ
  free : ℕ
  stack : ℕ
  wloc : WriterId → ℕ
  next : ℕ → ℕ
  page : ℕ → Page

def State.area (s : State) : Area := ⟨s.head, s.free, s.stack, s.wloc, s.next, s.page⟩

namespace Area

def setNext (a : Area) (p v : ℕ) : Area := { a with next := Function.update a.next p v }

/-- `kctrl_avail_impl`. -/
def kctrlAvail (a : Area) : Bool :=
  a.next (kctrlIndex a.head) != kctrlNull || a.next (kctrlIndex a.stack) != kctrlNull

/-- `kctrl_push_to_free_list`. -/
def kctrlPushToFreeList (a : Area) (head : ℕ) : Area :=
  { a.setNext (kctrlIndex head) a.free with free := head }

/-- The `while` of `kctrl_reverse_stack`; `none` when it is still running after `fuel` rounds. -/
def reverseLoop : ℕ → (ℕ → ℕ) → ℕ → ℕ → Option (ℕ → ℕ)
  | fuel, next, prev, stack =>
      if stack = kctrlNull then some next
      else match fuel with
        | 0 => none
        | fuel + 1 =>
            reverseLoop fuel (Function.update next (kctrlIndex stack) prev) stack
              (next (kctrlIndex stack))

/-- `kctrl_reverse_stack`: a chain has at most as many links as there are descriptors. -/
def kctrlReverseStack (a : Area) : Option Area :=
  (reverseLoop kctrlNpages a.next kctrlNull a.stack).map fun next => { a with next := next }

/-- `kctrl_next_generic`, with the index of the page it returns. -/
def kctrlNextGeneric (a : Area) : Option (Area × ℕ) :=
  a.kctrlReverseStack.map fun a =>
    let head := a.head
    let a := { a with head := a.next (kctrlIndex a.head) }
    let a := a.kctrlPushToFreeList head
    (a, kctrlIndex a.head)

/-- `kctrl_allocate`: the page taken, or `KCTRL_NULL`. -/
def kctrlAllocate (a : Area) (w : WriterId) : Area × ℕ :=
  if a.free = kctrlNull then (a, kctrlNull)
  else
    let free := a.free
    let a := { a with free := a.next free, wloc := Function.update a.wloc w free }
    (a.setNext (kctrlIndex free) kctrlNull, free)

/-- `kctrl_write_FIRST`: the index of the page to fill, or `none` for its null pointer. -/
def kctrlWriteFirst (a : Area) (w : WriterId) : Area × Option ℕ :=
  let r := a.kctrlAllocate w
  (r.1, if r.2 = kctrlNull then none else some (kctrlIndex r.2))

/-- `kctrl_push_new`. -/
def kctrlPushNew (a : Area) (w : WriterId) : Area :=
  { a.setNext (kctrlIndex (a.wloc w)) a.stack with stack := a.wloc w }

/-- Between FIRST and SECOND: `h->len = len` and the `memcpy`. -/
def fill (a : Area) (p : ℕ) (data : List UInt8) : Area :=
  { a with page := Function.update a.page p ⟨data.length, data ++ (a.page p).bytes.drop data.length⟩ }

/-- One round of `kctrl_write_plain`, and whether FIRST gave a page. The source repeats the round
until it does. -/
def kctrlWritePlain (a : Area) (w : WriterId) (data : List UInt8) : Area × Bool :=
  match a.kctrlWriteFirst w with
  | (a, none) => (a, false)
  | (a, some p) => ((a.fill p (clip data)).kctrlPushNew w, true)

end Area

/-- The calls on the ring: a writer writes, the reader asks for a message, takes one, or looks again
at the page it took last. -/
inductive Op
  | write (w : WriterId) (data : List UInt8)
  | avail
  | next
  | look

inductive Out
  | wrote (first : Bool)
  | avail (b : Bool)
  | message (m : List UInt8)
  deriving DecidableEq

structure Ring where
  area : Area
  /-- The page the last `kctrl_next_generic` returned. -/
  taken : Option ℕ

/-- The ring under whole calls. The reader calls `kctrl_next_generic` only when `kctrl_avail`. -/
def queueStep (r : Ring) : Op → Option (Ring × Out)
  | .write w data =>
      let (a, ok) := r.area.kctrlWritePlain w data
      some (⟨a, r.taken⟩, .wrote ok)
  | .avail => some (r, .avail r.area.kctrlAvail)
  | .next =>
      if r.area.kctrlAvail then
        r.area.kctrlNextGeneric.map fun n => (⟨n.1, some n.2⟩, .message (n.1.page n.2).plain)
      else none
  | .look => r.taken.map fun p => (r, .message (r.area.page p).plain)

def queue : Machine Ring Op Out := ⟨⟨kctrlInitControl.area, none⟩, queueStep⟩

/-- A queue of messages with the message taken out last. -/
structure Fifo where
  unread : List (List UInt8)
  taken : Option (List UInt8)

/-- A bounded first-in first-out queue: a write to a full queue is refused. -/
def fifoStep (capacity : ℕ) (q : Fifo) : Op → Option (Fifo × Out)
  | .write _ data =>
      if q.unread.length = capacity then some (q, .wrote false)
      else some (⟨q.unread ++ [clip data], q.taken⟩, .wrote true)
  | .avail => some (q, .avail (!q.unread.isEmpty))
  | .next =>
      match q.unread with
      | [] => none
      | m :: ms => some (⟨ms, some m⟩, .message m)
  | .look => q.taken.map fun m => (q, .message m)

def fifo (capacity : ℕ) : Machine Fifo Op Out := ⟨⟨[], none⟩, fifoStep capacity⟩

/-- Every descriptor is in the free list, in the list from `head` (`rd` and its last page `tail`), or
in the part `st` of the stack that no reversal has seen, and in one of them only. -/
structure Partition (a : Area) (fs rd : List ℕ) (tail : ℕ) (st : List ℕ) : Prop where
  free_links : Links a.next a.free fs kctrlNull
  read_links : Links a.next a.head (rd ++ [tail]) kctrlNull
  stack_links : Links a.next a.stack st tail
  perm : (fs ++ ((rd ++ [tail]) ++ st)).Perm (List.range kctrlNpages)

/-- The pages of the unread messages, oldest first. The page at `head` is the sentinel or the message
being read. -/
def unreadPages (rd : List ℕ) (tail : ℕ) (st : List ℕ) : List ℕ := (rd ++ [tail]).tail ++ st.reverse

/-- The ring holds the messages of the queue. -/
def Holds (r : Ring) (q : Fifo) : Prop :=
  ∃ fs rd tail st, Partition r.area fs rd tail st ∧
    q.unread = (unreadPages rd tail st).map (fun p => (r.area.page p).plain) ∧
    (∀ p, r.taken = some p → p = r.area.head) ∧
    q.taken = r.taken.map fun p => (r.area.page p).plain

/-! ## Whole calls and single accesses -/

/-- Steps of the reader only. -/
def readerRun : ℕ → State → State
  | 0, s => s
  | n + 1, s => readerRun n (readerStep s)

theorem readerRun_add (m n : ℕ) (s : State) : readerRun (m + n) s = readerRun n (readerRun m s) := by
  induction m generalizing s with
  | zero => rw [Nat.zero_add]; rfl
  | succ m ih =>
    rw [Nat.succ_add]
    exact ih (readerStep s)

theorem run_reader (n : ℕ) (s : State) :
    run ring s (List.replicate n .reader) = some (readerRun n s) := by
  induction n generalizing s with
  | zero => rfl
  | succ n ih => exact ih (readerStep s)

/-- A writer that is not interrupted does to the area what `kctrlWritePlain` does. -/
theorem run_write_alone {s : State} {w : WriterId} (data : List UInt8)
    (hidle : (s.writer w).pc = .idle) (hfree : s.free ≠ kctrlNull) :
    (run ring s (.call w data :: List.replicate 12 (.writer w))).map State.area =
      some (s.area.kctrlWritePlain w data).1 := by
  simp [run, runIf, ring, step, callStep, writerStep, hidle, hfree, State.setPc, State.setNext,
    State.setPage, State.area, Area.kctrlWritePlain, Area.kctrlWriteFirst, Area.kctrlAllocate,
    Area.setNext, Area.fill, Area.kctrlPushNew]

theorem readerRun_reverse {fuel : ℕ} {s : State} {prev stack : ℕ} {next : ℕ → ℕ}
    (hpc : s.reader = revLoop prev stack)
    (hloop : Area.reverseLoop fuel s.next prev stack = some next) :
    ∃ n, readerRun n s = { s with next := next, reader := .nextLoadHead } := by
  induction fuel generalizing s prev stack with
  | zero =>
    unfold Area.reverseLoop at hloop
    by_cases hnull : stack = kctrlNull
    · rw [if_pos hnull, Option.some.injEq] at hloop
      rw [revLoop, if_pos hnull] at hpc
      exact ⟨0, by rw [readerRun, ← hloop, ← hpc]⟩
    · rw [if_neg hnull] at hloop
      cases hloop
  | succ fuel ih =>
    unfold Area.reverseLoop at hloop
    by_cases hnull : stack = kctrlNull
    · rw [if_pos hnull, Option.some.injEq] at hloop
      rw [revLoop, if_pos hnull] at hpc
      exact ⟨0, by rw [readerRun, ← hloop, ← hpc]⟩
    · rw [if_neg hnull] at hloop
      rw [revLoop, if_neg hnull] at hpc
      -- one round is a load and a store
      have hround : readerRun 2 s = { s with
          next := Function.update s.next (kctrlIndex stack) prev
          reader := revLoop stack (s.next (kctrlIndex stack)) } := by
        simp [readerRun, readerStep, hpc, State.setReader, State.setNext]
      obtain ⟨n, hn⟩ := ih (s := readerRun 2 s) (by rw [hround]) (by rw [hround]; exact hloop)
      refine ⟨2 + n, ?_⟩
      rw [readerRun_add, hn, hround]

/-- A reader that is not interrupted after `kctrl_avail` does to the area what `kctrlNextGeneric`
does, and returns the same page. -/
theorem run_next_alone {s : State} {r : Area × ℕ} (hpc : s.reader = .revLoadStack)
    (hnext : s.area.kctrlNextGeneric = some r) :
    ∃ n s', run ring s (List.replicate n .reader) = some s' ∧ s'.area = r.1 ∧
      s'.reader = .idle ∧ s'.returned = s.returned ++ [(r.1.page r.2).plain] := by
  simp only [Area.kctrlNextGeneric, Area.kctrlReverseStack, Option.map_map,
    Option.map_eq_some_iff] at hnext
  obtain ⟨next, hloop, rfl⟩ := hnext
  have hstart : (readerStep s).reader = revLoop kctrlNull s.stack := by
    simp [readerStep, hpc, State.setReader]
  have hsame : (readerStep s).next = s.next := by simp [readerStep, hpc, State.setReader]
  have hrev : Area.reverseLoop kctrlNpages (readerStep s).next kctrlNull s.stack = some next := by
    rw [hsame]
    exact hloop
  obtain ⟨n, hn⟩ := readerRun_reverse hstart hrev
  refine ⟨1 + n + 8, readerRun (1 + n + 8) s, run_reader _ _, ?_⟩
  rw [readerRun_add, readerRun_add]
  have hone : readerRun 1 s = readerStep s := rfl
  rw [hone, hn]
  simp [readerRun, readerStep, hpc, State.setReader, State.setNext, State.area,
    Area.kctrlPushToFreeList, Area.setNext]

/-! ## Partitions -/

theorem links_start_ne {next : ℕ → ℕ} {x y : ℕ} {l : List ℕ} (h : Links next x l y)
    (hl : ∀ p ∈ l, p ≠ kctrlNull) (hy : y ≠ kctrlNull) : x ≠ kctrlNull := by
  cases l with
  | nil =>
    have : x = y := h
    exact this ▸ hy
  | cons p l =>
    have : x = p := h.1
    exact this ▸ hl p (by simp)

section Partition
variable {a : Area} {fs rd st : List ℕ} {tail : ℕ}

theorem Partition.lt (h : Partition a fs rd tail st) {p : ℕ}
    (hp : p ∈ fs ++ ((rd ++ [tail]) ++ st)) : p < kctrlNpages :=
  List.mem_range.mp (h.perm.mem_iff.mp hp)

theorem Partition.index (h : Partition a fs rd tail st) {p : ℕ}
    (hp : p ∈ fs ++ ((rd ++ [tail]) ++ st)) : kctrlIndex p = p :=
  kctrlIndex_of_lt (h.lt hp)

theorem Partition.ne_null (h : Partition a fs rd tail st) {p : ℕ}
    (hp : p ∈ fs ++ ((rd ++ [tail]) ++ st)) : p ≠ kctrlNull :=
  Nat.ne_of_lt (h.lt hp)

theorem Partition.nodup (h : Partition a fs rd tail st) : (fs ++ ((rd ++ [tail]) ++ st)).Nodup :=
  h.perm.nodup_iff.mpr List.nodup_range

theorem Partition.length (h : Partition a fs rd tail st) :
    fs.length + (unreadPages rd tail st).length = kctrlNpages - 1 := by
  have hlen := h.perm.length_eq
  simp only [List.length_append, List.length_singleton, List.length_range] at hlen
  simp only [unreadPages, List.length_append, List.length_tail, List.length_singleton,
    List.length_reverse]
  omega

theorem Partition.head_mem (h : Partition a fs rd tail st) : a.head ∈ rd ++ [tail] := by
  have hl := h.read_links
  cases rd with
  | nil =>
    have : a.head = tail := hl.1
    simp [this]
  | cons p rd =>
    have : a.head = p := hl.1
    simp [this]

theorem Partition.stack_mem (h : Partition a fs rd tail st) : a.stack ∈ tail :: st := by
  have hl := h.stack_links
  cases st with
  | nil =>
    have : a.stack = tail := hl
    simp [this]
  | cons p st =>
    have : a.stack = p := hl.1
    simp [this]

theorem Partition.free_null_iff (h : Partition a fs rd tail st) :
    a.free = kctrlNull ↔ (unreadPages rd tail st).length = kctrlNpages - 1 := by
  have hlen := h.length
  cases fs with
  | nil =>
    have hnull : a.free = kctrlNull := h.free_links
    simp only [List.length_nil, Nat.zero_add] at hlen
    simp [hnull, hlen]
  | cons f fs =>
    have hf : a.free = f := h.free_links.1
    have hne : a.free ≠ kctrlNull := by
      rw [hf]
      exact h.ne_null (by simp)
    simp only [List.length_cons] at hlen
    constructor
    · intro e
      exact absurd e hne
    · intro e
      omega

theorem Partition.next_tail (h : Partition a fs rd tail st) : a.next tail = kctrlNull :=
  (seg_snoc.mp h.read_links).2

theorem Partition.avail (h : Partition a fs rd tail st) :
    a.kctrlAvail = !(unreadPages rd tail st).isEmpty := by
  have hhead : kctrlIndex a.head = a.head := h.index (by grind [h.head_mem])
  have hstack : kctrlIndex a.stack = a.stack := h.index (by grind [h.stack_mem])
  unfold Area.kctrlAvail
  rw [hhead, hstack]
  cases rd with
  | cons p rd =>
    have hp : a.head = p := h.read_links.1
    have hnext : a.next p ≠ kctrlNull := by
      apply links_start_ne (seg_snoc.mp h.read_links.2).1
      · intro q hq
        exact h.ne_null (by simp [hq])
      · exact h.ne_null (by simp)
    rw [hp, bne_iff_ne.mpr hnext]
    simp [unreadPages]
  | nil =>
    have hp : a.head = tail := h.read_links.1
    rw [hp, h.next_tail]
    cases st with
    | nil =>
      have hs : a.stack = tail := h.stack_links
      simp [hs, h.next_tail, unreadPages]
    | cons p st =>
      have hs : a.stack = p := h.stack_links.1
      have hnext : a.next p ≠ kctrlNull := by
        apply links_start_ne h.stack_links.2
        · intro q hq
          exact h.ne_null (by simp [hq])
        · exact h.ne_null (by simp)
      rw [hs, bne_iff_ne.mpr hnext]
      simp [unreadPages]

end Partition

/-- `kctrl_init_control` puts page 0 at `head` and all others in the free list. -/
theorem partition_init : Partition kctrlInitControl.area (List.range' 1 (kctrlNpages - 1)) [] 0 [] where
  free_links := by
    have hloop : ∀ n i, 0 < i → i + n = kctrlNpages →
        Links kctrlInitControl.next (if n = 0 then kctrlNull else i) (List.range' i n) kctrlNull := by
      intro n
      induction n with
      | zero => intro i _ _; rfl
      | succ n ih =>
        intro i hi hin
        have hrest := ih (i + 1) (by omega) (by omega)
        have hnext : kctrlInitControl.next i = if n = 0 then kctrlNull else i + 1 := by
          show (if i = 0 ∨ i = kctrlNpages - 1 then kctrlNull else i + 1) = _
          by_cases hn : n = 0
          · have : i = kctrlNpages - 1 := by omega
            simp [hn, this]
          · have h1 : ¬ (i = 0 ∨ i = kctrlNpages - 1) := by omega
            rw [if_neg h1, if_neg hn]
        rw [List.range'_succ, if_neg (Nat.succ_ne_zero n)]
        refine ⟨rfl, ?_⟩
        rw [hnext]
        exact hrest
    exact hloop (kctrlNpages - 1) 1 (by omega) (by decide)
  read_links := ⟨rfl, rfl⟩
  stack_links := rfl
  perm := by
    have hrange : List.range kctrlNpages = 0 :: List.range' 1 (kctrlNpages - 1) := by
      rw [List.range_eq_range']
      exact List.range'_succ
    rw [hrange]
    exact List.perm_append_comm

/-! ## `kctrl_write_plain` -/

theorem kctrlWritePlain_full {a : Area} (w : WriterId) (data : List UInt8)
    (hf : a.free = kctrlNull) : a.kctrlWritePlain w data = (a, false) := by
  simp [Area.kctrlWritePlain, Area.kctrlWriteFirst, Area.kctrlAllocate, hf]

theorem fill_plain (old : List UInt8) (data : List UInt8) :
    (Page.mk data.length (data ++ old.drop data.length)).plain = data := by
  simp [Page.plain]

theorem kctrlWritePlain_free {a : Area} (w : WriterId) (data : List UInt8)
    (hf : a.free ≠ kctrlNull) (hi : kctrlIndex a.free = a.free) :
    a.kctrlWritePlain w data =
      ({ a with
          free := a.next a.free
          stack := a.free
          wloc := Function.update a.wloc w a.free
          next := Function.update a.next a.free a.stack
          page := Function.update a.page a.free ⟨(clip data).length,
            clip data ++ (a.page a.free).bytes.drop (clip data).length⟩ }, true) := by
  simp [Area.kctrlWritePlain, Area.kctrlWriteFirst, Area.kctrlAllocate, hf, hi, Area.setNext,
    Area.fill, Area.kctrlPushNew]

theorem kctrlWritePlain_page {a : Area} (w : WriterId) (data : List UInt8)
    (hf : a.free ≠ kctrlNull) (hi : kctrlIndex a.free = a.free) {p : ℕ} (hp : p ≠ a.free) :
    (a.kctrlWritePlain w data).1.page p = a.page p := by
  rw [kctrlWritePlain_free w data hf hi]
  exact Function.update_of_ne hp _ _

theorem kctrlWritePlain_page_free {a : Area} (w : WriterId) (data : List UInt8)
    (hf : a.free ≠ kctrlNull) (hi : kctrlIndex a.free = a.free) :
    ((a.kctrlWritePlain w data).1.page a.free).plain = clip data := by
  rw [kctrlWritePlain_free w data hf hi]
  show (Function.update a.page a.free _ a.free).plain = _
  rw [Function.update_self]
  exact fill_plain _ _

theorem Partition.write {a : Area} {fs rd st : List ℕ} {tail f : ℕ} (w : WriterId)
    (data : List UInt8) (h : Partition a (f :: fs) rd tail st) :
    Partition (a.kctrlWritePlain w data).1 fs rd tail (f :: st) := by
  have hf : a.free = f := h.free_links.1
  have hmem : f ∈ f :: fs ++ ((rd ++ [tail]) ++ st) := by simp
  have hnodup : (f :: (fs ++ ((rd ++ [tail]) ++ st))).Nodup := h.nodup
  have hfresh := (List.nodup_cons.mp hnodup).1
  rw [kctrlWritePlain_free w data (hf ▸ h.ne_null hmem) (hf ▸ h.index hmem), hf]
  refine ⟨?_, ?_, ?_, ?_⟩
  · exact h.free_links.2.update (by grind)
  · exact h.read_links.update (by grind)
  · refine ⟨rfl, ?_⟩
    show Links _ (Function.update a.next f a.stack f) st tail
    rw [Function.update_self]
    exact h.stack_links.update (by grind)
  · refine List.Perm.trans ?_ h.perm
    have hswap : (fs ++ (rd ++ [tail]) ++ f :: st).Perm (f :: (fs ++ (rd ++ [tail]) ++ st)) :=
      List.perm_middle
    simpa using hswap

/-! ## `kctrl_next_generic` -/

/-- The loop puts the chain from `stack`, reversed, before the chain from `prev`. -/
theorem reverseLoop_links {fuel : ℕ} {next : ℕ → ℕ} {prev stack : ℕ} {todo done : List ℕ}
    (hstack : Links next stack todo kctrlNull) (hprev : Links next prev done kctrlNull)
    (hnodup : (todo ++ done).Nodup) (hlt : ∀ p ∈ todo, p < kctrlNpages)
    (hfuel : todo.length ≤ fuel) :
    ∃ next', Area.reverseLoop fuel next prev stack = some next' ∧
      Links next' (todo.reverse.headD prev) (todo.reverse ++ done) kctrlNull ∧
      ∀ p, p ∉ todo → next' p = next p := by
  induction todo generalizing fuel next prev stack done with
  | nil =>
    have hnull : stack = kctrlNull := hstack
    refine ⟨next, ?_, hprev, fun _ _ => rfl⟩
    unfold Area.reverseLoop
    rw [if_pos hnull]
  | cons p todo ih =>
    have hp : stack = p := hstack.1
    subst hp
    have hlt' : stack < kctrlNpages := hlt stack (by simp)
    have hne : stack ≠ kctrlNull := Nat.ne_of_lt hlt'
    obtain ⟨hfresh, hnodup'⟩ := List.nodup_cons.mp hnodup
    cases fuel with
    | zero => simp at hfuel
    | succ fuel =>
      -- the page moves from the front of `todo` to the front of `done`
      have hrest : Links (Function.update next stack prev) (next stack) todo kctrlNull :=
        hstack.2.update (by grind)
      have hdone : Links (Function.update next stack prev) stack (stack :: done) kctrlNull := by
        refine ⟨rfl, ?_⟩
        rw [Function.update_self]
        exact hprev.update (by grind)
      have hmove : (todo ++ stack :: done).Nodup :=
        List.nodup_middle.mpr (List.nodup_cons.mpr ⟨hfresh, hnodup'⟩)
      obtain ⟨next', hloop, hlinks, hframe⟩ := ih hrest hdone hmove
        (fun q hq => hlt q (by simp [hq])) (by simpa using hfuel)
      refine ⟨next', ?_, ?_, ?_⟩
      · unfold Area.reverseLoop
        rw [if_neg hne, kctrlIndex_of_lt hlt']
        exact hloop
      · have hhead : (stack :: todo).reverse.headD prev = todo.reverse.headD stack := by
          rw [List.reverse_cons]
          cases todo.reverse <;> rfl
        rw [hhead]
        simpa using hlinks
      · intro q hq
        rw [hframe q (by grind)]
        exact Function.update_of_ne (by grind) _ _

/-- `kctrl_reverse_stack` ends, and appends what was pushed, in the order of pushing, to the list
from `head`. -/
theorem Partition.reverse {a : Area} {fs rd st : List ℕ} {tail : ℕ} (h : Partition a fs rd tail st) :
    ∃ next', a.kctrlReverseStack = some { a with next := next' } ∧
      Links next' a.free fs kctrlNull ∧
      Links next' a.head (rd ++ tail :: st.reverse) kctrlNull := by
  have htodo : Links a.next a.stack (st ++ [tail]) kctrlNull :=
    seg_snoc.mpr ⟨h.stack_links, h.next_tail⟩
  have hnodup := h.nodup
  have hlen := h.perm.length_eq
  simp only [List.length_append, List.length_singleton, List.length_range] at hlen
  have hnone : Links a.next kctrlNull [] kctrlNull := rfl
  have hfuel : (st ++ [tail]).length ≤ kctrlNpages := by
    simp only [List.length_append, List.length_singleton]
    omega
  obtain ⟨next', hloop, hlinks, hframe⟩ := reverseLoop_links htodo hnone (by grind)
    (fun p hp => h.lt (by grind)) hfuel
  refine ⟨next', by rw [Area.kctrlReverseStack, hloop]; rfl, ?_, ?_⟩
  · exact h.free_links.congr fun p hp => hframe p (by grind)
  · have hrd : Links next' a.head rd tail :=
      (seg_snoc.mp h.read_links).1.congr fun p hp => hframe p (by grind)
    refine seg_append.mpr ⟨tail, hrd, ?_⟩
    simpa using hlinks

theorem Partition.stack_last {a : Area} {fs rd st : List ℕ} {tail : ℕ}
    (h : Partition a fs rd tail st) : (rd ++ tail :: st.reverse).getLast? = some a.stack := by
  have hl := h.stack_links
  cases st with
  | nil =>
    have hs : a.stack = tail := hl
    simp [hs]
  | cons p st =>
    have hs : a.stack = p := hl.1
    rw [hs, List.reverse_cons, ← List.cons_append, ← List.append_assoc, List.getLast?_concat]

/-- `kctrl_next_generic` moves `head` to the oldest unread page and frees the page before it. -/
theorem Partition.next {a : Area} {fs rd st : List ℕ} {tail p : ℕ} {ps : List ℕ}
    (h : Partition a fs rd tail st) (hun : unreadPages rd tail st = p :: ps) :
    ∃ a' rd' tail', a.kctrlNextGeneric = some (a', p) ∧ a'.head = p ∧ a'.page = a.page ∧
      Partition a' (a.head :: fs) rd' tail' [] ∧ unreadPages rd' tail' [] = ps := by
  obtain ⟨next', hrev, hfree, hread⟩ := h.reverse
  -- the list from `head` is the page at `head` and the unread pages
  have hlist : rd ++ tail :: st.reverse = a.head :: p :: ps := by
    have hhead : (rd ++ [tail]).head? = some a.head := by
      have hl := h.read_links
      cases rd with
      | nil => exact congrArg some hl.1.symm
      | cons q rd => exact congrArg some hl.1.symm
    rw [unreadPages] at hun
    cases hrt : rd ++ [tail] with
    | nil => simp at hrt
    | cons q l =>
      rw [hrt, List.head?_cons, Option.some.injEq] at hhead
      rw [hrt, List.tail_cons] at hun
      calc rd ++ tail :: st.reverse = (rd ++ [tail]) ++ st.reverse := by simp
        _ = a.head :: p :: ps := by rw [hrt, hhead, List.cons_append, hun]
  have hperm : (fs ++ (a.head :: p :: ps)).Perm (List.range kctrlNpages) := by
    rw [← hlist]
    refine List.Perm.trans ?_ h.perm
    simpa using List.Perm.append_left fs (List.Perm.append_left rd
      (List.Perm.cons tail (List.reverse_perm st)))
  have hnodup : (fs ++ (a.head :: p :: ps)).Nodup := hperm.nodup_iff.mpr List.nodup_range
  have hlt : ∀ q ∈ fs ++ (a.head :: p :: ps), q < kctrlNpages :=
    fun q hq => List.mem_range.mp (hperm.mem_iff.mp hq)
  rw [hlist] at hread
  have hp : next' a.head = p := hread.2.1
  have hiHead : kctrlIndex a.head = a.head := kctrlIndex_of_lt (hlt _ (by simp))
  have hiP : kctrlIndex p = p := kctrlIndex_of_lt (hlt _ (by simp))
  obtain ⟨rd', hsplit⟩ : ∃ rd', p :: ps = rd' ++ [a.stack] := by
    have hlast := h.stack_last
    rw [hlist, List.getLast?_cons_cons] at hlast
    exact ⟨_, (List.dropLast_append_getLast? _ hlast).symm⟩
  refine ⟨{ a with
      head := p
      free := a.head
      next := Function.update next' a.head a.free }, rd', a.stack, ?_, rfl, rfl, ?_, ?_⟩
  · simp [Area.kctrlNextGeneric, hrev, Area.kctrlPushToFreeList, Area.setNext, hiHead, hp, hiP]
  · refine ⟨?_, ?_, rfl, ?_⟩
    · refine ⟨rfl, ?_⟩
      show Links _ (Function.update next' a.head a.free a.head) fs kctrlNull
      rw [Function.update_self]
      exact hfree.update (by grind)
    · rw [← hsplit]
      have hl : Links next' p (p :: ps) kctrlNull := hp ▸ hread.2
      exact hl.update (by grind)
    · refine List.Perm.trans ?_ hperm
      rw [← hsplit]
      have hswap : (fs ++ a.head :: p :: ps).Perm (a.head :: (fs ++ p :: ps)) := List.perm_middle
      simpa using hswap.symm
  · rw [unreadPages, ← hsplit]
    simp

/-! ## The refinement -/

theorem mem_of_mem_unreadPages {rd st : List ℕ} {tail p : ℕ} (h : p ∈ unreadPages rd tail st) :
    p ∈ (rd ++ [tail]) ++ st := by
  rcases List.mem_append.mp h with h | h
  · exact List.mem_append_left _ (List.mem_of_mem_tail h)
  · exact List.mem_append_right _ (List.mem_reverse.mp h)

theorem holds_write {r : Ring} {q : Fifo} (w : WriterId) (data : List UInt8) (h : Holds r q) :
    ∃ q', fifoStep (kctrlNpages - 1) q (.write w data) =
        some (q', .wrote (r.area.kctrlWritePlain w data).2) ∧
      Holds ⟨(r.area.kctrlWritePlain w data).1, r.taken⟩ q' := by
  obtain ⟨fs, rd, tail, st, hpart, hun, htaken, hq⟩ := h
  have hlen : q.unread.length = (unreadPages rd tail st).length := by rw [hun, List.length_map]
  by_cases hfree : r.area.free = kctrlNull
  · have hfull := hpart.free_null_iff.mp hfree
    rw [kctrlWritePlain_full w data hfree]
    exact ⟨q, by rw [fifoStep, if_pos (hlen.trans hfull)], fs, rd, tail, st, hpart, hun, htaken, hq⟩
  · have hroom : q.unread.length ≠ kctrlNpages - 1 := by
      intro e
      exact hfree (hpart.free_null_iff.mpr (hlen.symm.trans e))
    cases fs with
    | nil => exact absurd hpart.free_links hfree
    | cons f fs =>
      have hf : r.area.free = f := hpart.free_links.1
      have hidx : kctrlIndex r.area.free = r.area.free := hf ▸ hpart.index (by simp)
      have hfresh : f ∉ fs ++ ((rd ++ [tail]) ++ st) := (List.nodup_cons.mp hpart.nodup).1
      have hwrite := kctrlWritePlain_free w data hfree hidx
      have hpage : ∀ p, p ∈ (rd ++ [tail]) ++ st →
          (r.area.kctrlWritePlain w data).1.page p = r.area.page p := by
        intro p hp
        apply kctrlWritePlain_page w data hfree hidx
        rw [hf]
        intro e
        exact hfresh (List.mem_append_right _ (e ▸ hp))
      refine ⟨⟨q.unread ++ [clip data], q.taken⟩, ?_, fs, rd, tail, f :: st,
        hpart.write w data, ?_, ?_, ?_⟩
      · rw [fifoStep, if_neg hroom, hwrite]
      · have hold : (unreadPages rd tail st).map
            (fun p => ((r.area.kctrlWritePlain w data).1.page p).plain) = q.unread := by
          rw [hun]
          apply List.map_congr_left
          intro p hp
          rw [hpage p (mem_of_mem_unreadPages hp)]
        have hpages : unreadPages rd tail (f :: st) = unreadPages rd tail st ++ [f] := by
          simp [unreadPages]
        rw [hpages, List.map_append, hold, List.map_singleton, ← hf,
          kctrlWritePlain_page_free w data hfree hidx]
      · intro p hp
        rw [hwrite]
        exact htaken p hp
      · show q.taken = _
        rw [hq]
        cases ht : r.taken with
        | none => rfl
        | some p =>
          have hmem : p ∈ (rd ++ [tail]) ++ st := by
            rw [htaken p ht]
            exact List.mem_append_left _ hpart.head_mem
          rw [Option.map_some, Option.map_some, hpage p hmem]

theorem holds_next {r : Ring} {q : Fifo} {m : List UInt8} {ms : List (List UInt8)} (h : Holds r q)
    (hq : q.unread = m :: ms) :
    ∃ n, r.area.kctrlNextGeneric = some n ∧ (n.1.page n.2).plain = m ∧
      Holds ⟨n.1, some n.2⟩ ⟨ms, some m⟩ := by
  obtain ⟨fs, rd, tail, st, hpart, hun, -, -⟩ := h
  rw [hq] at hun
  obtain ⟨p, ps, hpages, hm, hms⟩ := List.map_eq_cons_iff.mp hun.symm
  obtain ⟨a, rd', tail', hnext, hhead, hpage, hpart', hps⟩ := hpart.next hpages
  refine ⟨(a, p), hnext, by rw [hpage, hm], _, rd', tail', [], hpart', ?_, ?_, ?_⟩
  · show ms = _
    rw [hps, hpage, hms]
  · intro p' hp'
    rw [hhead]
    exact (Option.some.inj hp').symm
  · show some m = some (a.page p).plain
    rw [hpage, hm]

theorem holds_init : Holds queue.init (fifo (kctrlNpages - 1)).init :=
  ⟨_, [], 0, [], partition_init, rfl, fun _ h => by simp [queue] at h, rfl⟩

theorem Holds.avail {r : Ring} {q : Fifo} (h : Holds r q) :
    r.area.kctrlAvail = !q.unread.isEmpty := by
  obtain ⟨fs, rd, tail, st, hpart, hun, -, -⟩ := h
  rw [hpart.avail, hun, List.isEmpty_map]

theorem queue_simulation : Simulation queue (fifo (kctrlNpages - 1)) Holds where
  init := holds_init
  stuck := by
    intro r q op h hs
    cases op with
    | write w data => simp [queue, queueStep] at hs
    | avail => simp [queue, queueStep] at hs
    | next =>
      cases hq : q.unread with
      | nil => simp [fifo, fifoStep, hq]
      | cons m ms =>
        obtain ⟨n, hn, -, -⟩ := holds_next h hq
        have hav : r.area.kctrlAvail = true := by rw [h.avail, hq]; rfl
        simp [queue, queueStep, hav, hn] at hs
    | look =>
      obtain ⟨-, -, -, -, -, -, -, htaken⟩ := h
      simp only [queue, queueStep, Option.map_eq_none_iff] at hs
      simp [fifo, fifoStep, htaken, hs]
  step := by
    intro r q op r' o h hs
    cases op with
    | write w data =>
      obtain ⟨q', hq, hr⟩ := holds_write w data h
      simp only [queue, queueStep, Option.some.injEq, Prod.mk.injEq] at hs
      obtain ⟨rfl, rfl⟩ := hs
      exact ⟨q', hq, hr⟩
    | avail =>
      simp only [queue, queueStep, Option.some.injEq, Prod.mk.injEq] at hs
      obtain ⟨rfl, rfl⟩ := hs
      exact ⟨q, by rw [h.avail]; rfl, h⟩
    | next =>
      cases hq : q.unread with
      | nil =>
        have hav : r.area.kctrlAvail = false := by rw [h.avail, hq]; rfl
        simp [queue, queueStep, hav] at hs
      | cons m ms =>
        obtain ⟨n, hn, hm, hr⟩ := holds_next h hq
        have hav : r.area.kctrlAvail = true := by rw [h.avail, hq]; rfl
        simp only [queue, queueStep, hav, if_true, hn, Option.map_some, Option.some.injEq,
          Prod.mk.injEq] at hs
        obtain ⟨rfl, rfl⟩ := hs
        refine ⟨⟨ms, some m⟩, ?_, hr⟩
        show fifoStep (kctrlNpages - 1) q .next = _
        rw [fifoStep, hq, hm]
    | look =>
      have htaken := h.choose_spec.choose_spec.choose_spec.choose_spec.2.2.2
      simp only [queue, queueStep, Option.map_eq_some_iff, Prod.mk.injEq] at hs
      obtain ⟨p, hp, rfl, rfl⟩ := hs
      refine ⟨q, ?_, h⟩
      show fifoStep (kctrlNpages - 1) q .look = _
      rw [fifoStep, htaken, hp]
      rfl

/-- The ring under whole calls gives the outputs of a bounded queue on every sequence of calls, and
its descriptors stay partitioned. -/
theorem ring_refines_fifo (ops : List Op) :
    (queue.trace queue.init ops).map Prod.snd =
        ((fifo (kctrlNpages - 1)).trace (fifo (kctrlNpages - 1)).init ops).map Prod.snd ∧
      ∀ r outs, queue.trace queue.init ops = some (r, outs) →
        ∃ fs rd tail st, Partition r.area fs rd tail st := by
  obtain ⟨heq, hend⟩ := queue_simulation.trace holds_init ops
  refine ⟨heq, ?_⟩
  intro r outs hr
  obtain ⟨q, fs, rd, tail, st, hpart, -⟩ := hend r outs hr
  exact ⟨fs, rd, tail, st, hpart⟩

end Netp.Kring.Ctrl
