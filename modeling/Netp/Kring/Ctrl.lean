import Netp.Lib.Run
import Mathlib.Data.Fintype.Basic

/-! # The control ring (`kring/kctrl.h`), one atomic access a step

Writers take a page from a free list (`kctrl_allocate`), fill it, and push it on a stack of
messages (`kctrl_push_new`). The one reader reverses the stack in place (`kctrl_reverse_stack`),
moves the head of the list to the next page and gives the old head back to the free list
(`kctrl_next_generic`, `kctrl_push_to_free_list`).

Every party is a program counter that carries the local variables of the function it is in. A step
is one load, one store or one compare-and-swap of the shared area; tests of local variables belong
to the step that loads the last of them. `head->tail` is written by `kctrl_init_control` only and
is left out.
-/

namespace Netp.Kring.Ctrl
open Netp.Lib
set_option autoImplicit false

def kctrlNpages : ℕ := 2048

/-- `KCTRL_NULL`: one past the last page. -/
def kctrlNull : ℕ := kctrlNpages

abbrev kctrlWriters : ℕ := 6

/-- `KCTRL_INDEX`. -/
def kctrlIndex (off : ℕ) : ℕ := off &&& 0x7ff

def kringPageSize : ℕ := 4096

/-- `kctrl_plain_max_data`: a page less the `int len` of `kctrl_plain_header`. -/
def kctrlPlainMaxData : ℕ := kringPageSize - 4

/-- A page under the plain protocol: `kctrl_plain_header::len`, then the bytes. -/
structure Page where
  len : ℕ
  bytes : List UInt8

/-- What `kctrl_next_plain` hands out of a page. -/
def Page.plain (p : Page) : List UInt8 := p.bytes.take p.len

abbrev WriterId := Fin kctrlWriters

/-- Where a writer is in `kctrl_write_plain`. -/
inductive WriterPc
  | idle
  -- kctrl_allocate
  | allocLoadFree
  | allocLoadNext (free : ℕ)
  | allocCas (free next : ℕ)
  | allocStoreWloc (free : ℕ)
  | allocClearNext (free : ℕ)
  -- kctrl_write_plain, between FIRST and SECOND
  | writeLen (page : ℕ)
  | writeBytes (page : ℕ)
  -- kctrl_push_new
  | pushLoadStack
  | pushLoadWloc (stack : ℕ)
  | pushStoreNext (stack wloc : ℕ)
  | pushLoadWlocAgain (stack : ℕ)
  | pushCas (stack wloc : ℕ)

/-- Where the reader is in its loop `if ( kctrl_avail ) kctrl_next_generic`. -/
inductive ReaderPc
  | idle
  -- kctrl_avail_impl, after its first load
  | availHeadNext (head : ℕ)
  | availLoadStack
  | availStackNext (stack : ℕ)
  -- kctrl_reverse_stack
  | revLoadStack
  | revLoadNext (prev stack : ℕ)
  | revStoreNext (prev stack next : ℕ)
  -- kctrl_next_generic
  | nextLoadHead
  | nextLoadHeadAgain (head : ℕ)
  | nextLoadNext (head index : ℕ)
  | nextStoreHead (head next : ℕ)
  -- kctrl_push_to_free_list
  | freeLoadFree (head : ℕ)
  | freeStoreNext (head free : ℕ)
  | freeCas (head free : ℕ)
  -- kctrl_next_generic, the returned page
  | nextReturn

structure Writer where
  pc : WriterPc
  /-- The bytes this call of `kctrl_write_plain` stores. -/
  data : List UInt8

structure State where
  -- kctrl_shared_head
  head : ℕ
  free : ℕ
  stack : ℕ
  -- kctrl_shared_writer, kctrl_shared_desc, the pages
  wloc : WriterId → ℕ
  next : ℕ → ℕ
  page : ℕ → Page
  writer : WriterId → Writer
  reader : ReaderPc
  /-- History: the payloads of the calls of `kctrl_write_plain`, per writer. -/
  calls : WriterId → List (List UInt8)
  /-- History: the messages in the order in which their pushes took effect. -/
  pushed : List (WriterId × List UInt8)
  /-- History: what the successive calls of `kctrl_next_generic` returned. -/
  returned : List (List UInt8)

/-- `kctrl_init_control` on zeroed memory. Page 0 is the stack sentinel, the others are free. -/
def kctrlInitControl : State where
  head := 0
  free := 1
  stack := 0
  wloc := fun _ => 0
  next := fun i => if i = 0 ∨ i = kctrlNpages - 1 then kctrlNull else i + 1
  page := fun _ => ⟨0, []⟩
  writer := fun _ => ⟨.idle, []⟩
  reader := .idle
  calls := fun _ => []
  pushed := []
  returned := []

namespace State

def setPc (s : State) (w : WriterId) (pc : WriterPc) : State :=
  { s with writer := Function.update s.writer w ⟨pc, (s.writer w).data⟩ }

def setReader (s : State) (pc : ReaderPc) : State := { s with reader := pc }

/-- A store to `descriptor[p].next`. -/
def setNext (s : State) (p v : ℕ) : State := { s with next := Function.update s.next p v }

def setPage (s : State) (p : ℕ) (v : Page) : State :=
  { s with page := Function.update s.page p v }

end State

/-- `len` cut to `kctrl_plain_max_data()`, with its bytes. -/
def clip (data : List UInt8) : List UInt8 := data.take kctrlPlainMaxData

/-- Writer `w` enters `kctrl_write_plain( u, data, len )`. -/
def callStep (s : State) (w : WriterId) (data : List UInt8) : Option State :=
  match (s.writer w).pc with
  | .idle => some { s with
      writer := Function.update s.writer w ⟨.allocLoadFree, clip data⟩
      calls := Function.update s.calls w (s.calls w ++ [clip data]) }
  | _ => none

/-- The next atomic access of writer `w`. -/
def writerStep (s : State) (w : WriterId) : Option State :=
  match (s.writer w).pc with
  | .idle => none
  | .allocLoadFree =>
      -- kctrl_write_plain waits and calls kctrl_write_FIRST again when this one gives null
      if s.free = kctrlNull then some s else some (s.setPc w (.allocLoadNext s.free))
  | .allocLoadNext free => some (s.setPc w (.allocCas free (s.next free)))
  | .allocCas free next =>
      if s.free = free then some ({ s with free := next }.setPc w (.allocStoreWloc free))
      else some (s.setPc w .allocLoadFree)
  | .allocStoreWloc free =>
      some ({ s with wloc := Function.update s.wloc w free }.setPc w (.allocClearNext free))
  | .allocClearNext free =>
      some ((s.setNext (kctrlIndex free) kctrlNull).setPc w (.writeLen free))
  | .writeLen p =>
      let q := kctrlIndex p
      let data := (s.writer w).data
      some ((s.setPage q ⟨data.length, (s.page q).bytes⟩).setPc w (.writeBytes p))
  | .writeBytes p =>
      let q := kctrlIndex p
      let data := (s.writer w).data
      let bytes := data ++ (s.page q).bytes.drop data.length
      some ((s.setPage q ⟨(s.page q).len, bytes⟩).setPc w .pushLoadStack)
  | .pushLoadStack => some (s.setPc w (.pushLoadWloc s.stack))
  | .pushLoadWloc stack => some (s.setPc w (.pushStoreNext stack (s.wloc w)))
  | .pushStoreNext stack wloc =>
      some ((s.setNext (kctrlIndex wloc) stack).setPc w (.pushLoadWlocAgain stack))
  | .pushLoadWlocAgain stack => some (s.setPc w (.pushCas stack (s.wloc w)))
  | .pushCas stack wloc =>
      if s.stack = stack then
        some ({ s with stack := wloc, pushed := s.pushed ++ [(w, (s.writer w).data)] }.setPc w
          .idle)
      else some (s.setPc w .pushLoadStack)

/-- The head of the `while` of `kctrl_reverse_stack`. -/
def revLoop (prev stack : ℕ) : ReaderPc :=
  if stack = kctrlNull then .nextLoadHead else .revLoadNext prev stack

/-- The next atomic access of the reader. -/
def readerStep (s : State) : State :=
  match s.reader with
  | .idle => s.setReader (.availHeadNext s.head)
  | .availHeadNext head =>
      if s.next (kctrlIndex head) = kctrlNull then s.setReader .availLoadStack
      else s.setReader .revLoadStack
  | .availLoadStack => s.setReader (.availStackNext s.stack)
  | .availStackNext stack =>
      if s.next (kctrlIndex stack) = kctrlNull then s.setReader .idle
      else s.setReader .revLoadStack
  | .revLoadStack => s.setReader (revLoop kctrlNull s.stack)
  | .revLoadNext prev stack => s.setReader (.revStoreNext prev stack (s.next (kctrlIndex stack)))
  | .revStoreNext prev stack next =>
      (s.setNext (kctrlIndex stack) prev).setReader (revLoop stack next)
  | .nextLoadHead => s.setReader (.nextLoadHeadAgain s.head)
  | .nextLoadHeadAgain head => s.setReader (.nextLoadNext head s.head)
  | .nextLoadNext head index => s.setReader (.nextStoreHead head (s.next (kctrlIndex index)))
  | .nextStoreHead head next => { s with head := next }.setReader (.freeLoadFree head)
  | .freeLoadFree head => s.setReader (.freeStoreNext head s.free)
  | .freeStoreNext head free => (s.setNext (kctrlIndex head) free).setReader (.freeCas head free)
  | .freeCas head free =>
      if s.free = free then { s with free := head }.setReader .nextReturn
      else s.setReader (.freeLoadFree head)
  | .nextReturn =>
      { s with returned := s.returned ++ [(s.page (kctrlIndex s.head)).plain] }.setReader .idle

inductive Act
  | call (w : WriterId) (data : List UInt8)
  | writer (w : WriterId)
  | reader

def step (s : State) : Act → Option State
  | .call w data => callStep s w data
  | .writer w => writerStep s w
  | .reader => some (readerStep s)

def ring : System State Act := ⟨kctrlInitControl, step⟩

/-- The page a writer owns: from the compare-and-swap that took it off the free list to the one
that pushes it on the stack. -/
def owned (s : State) (w : WriterId) : Option ℕ :=
  match (s.writer w).pc with
  | .allocStoreWloc p | .allocClearNext p | .writeLen p | .writeBytes p => some p
  | .pushLoadStack | .pushLoadWloc _ | .pushStoreNext _ _ | .pushLoadWlocAgain _
  | .pushCas _ _ => some (s.wloc w)
  | _ => none

/-- The call of `kctrl_write_plain` that a writer is in has not pushed its message yet. -/
def inCall (s : State) (w : WriterId) : List (List UInt8) :=
  match (s.writer w).pc with
  | .idle => []
  | _ => [(s.writer w).data]

end Netp.Kring.Ctrl
