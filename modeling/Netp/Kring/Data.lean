import Netp.Lib.Run
import Mathlib.Tactic

/-! # The data ring (`kring/kdata.h`), one atomic access a step

A ring of pages, each with a descriptor word: a bit for a writer that fills the page, a bit for
every reader that has it, and a bit that a writer passed it over. Writers go forward from `whead`
to a page nobody has (`kdata_find_write_loc`), fill it, and move `whead` onto it
(`kdata_write_SECOND`). A reader goes forward from its own `rhead`, takes the next page and only
then gives back the one it had (`kdata_next_generic`).

Steps are single loads, stores and compare-and-swaps of the shared control area, for any number of
writers; filling a page is one step. A ring is taken alone (`ring_id` is not
`KDATA_RING_ID_ALL`). The pages are of any type; a page holds the message last stored and how many
were stored before it, in the ring's whole life. `produced`, `consumed` and `skips` are naturals for the
unsigned 64-bit counters of the source, whose values no step tests.
-/

namespace Netp.Kring.Data
open Netp.Lib
set_option autoImplicit false

abbrev kdataNpages : ℕ := 2048
abbrev kdataReaders : ℕ := 6
abbrev ReaderId := Fin kdataReaders

/-! There is a reader 0, and a writer 0 in a ring with one writer. -/

instance neZero_kdataReaders : NeZero kdataReaders := ⟨Nat.succ_ne_zero 5⟩

instance neZero_one : NeZero 1 := ⟨Nat.one_ne_zero⟩

/-- `kdata_desc_t`. -/
abbrev Desc := BitVec 16

def kdataDscReaderShift : ℕ := 2
def kdataDscWriterOwned : Desc := 0x01
def kdataDscSkipped : Desc := 0x02
def kdataDscReaderOwned : Desc := 0xfc
def kdataDscReaderBit (id : ReaderId) : Desc := 0x1#16 <<< (kdataDscReaderShift + id.val)

def kdataNext (off : ℕ) : ℕ := if off + 1 ≥ kdataNpages then 0 else off + 1

def kdataPrev (off : ℕ) : ℕ := if off = 0 then kdataNpages - 1 else off - 1

/-- The word with which `kdata_reader_release` gives a page back. -/
def releaseVal (id : ReaderId) (desc : Desc) : Desc :=
  let newval := desc &&& ~~~kdataDscReaderBit id
  if desc &&& kdataDscSkipped ≠ 0 then
    if newval &&& kdataDscReaderOwned = 0 then newval &&& ~~~kdataDscSkipped else newval
  else newval

/-- Where a writer is; `page` is the one `kdata_write_FIRST` gave it. -/
inductive WriterPc
  | idle
  -- kdata_find_write_loc
  | findLoadWhead
  | findRead (whead : ℕ)
  | findSkip (whead : ℕ) (desc : Desc) (id : ReaderId)
  | findSkipStore (whead : ℕ) (desc : Desc) (id : ReaderId) (skips : ℕ)
  | findSkipCas (whead : ℕ) (desc : Desc)
  | findClaimCas (whead : ℕ) (desc : Desc)
  -- kdata_write_FIRST, then the caller
  | firstStoreWresv (page : ℕ)
  | fill (page : ℕ)
  -- kdata_write_SECOND and kdata_writer_release
  | secondLoadWresv (page : ℕ)
  | releaseRead (page wresv : ℕ)
  | releaseCas (page wresv : ℕ) (desc : Desc)
  | secondLoadWresvAgain
  | secondStoreWhead (wresv : ℕ)
  -- kdata_write_single
  | addProduced

/-- Where a reader is; outside its calls it is `idle`, and `detached` before `kdata_prep_enter`
and after `kdata_destruct`. -/
inductive ReaderPc
  | detached
  -- kdata_prep_enter
  | enterLoadWhead
  | enterStoreRhead (rhead : ℕ)
  | enterStoreSkips
  | enterStoreEntered
  | enterLoadProduced
  | enterStoreConsumed (produced : ℕ)
  | idle
  -- kdata_avail_impl, after its first load
  | availLoadWhead (rhead : ℕ)
  -- kdata_next_generic and kdata_advance_rhead
  | nextLoadRhead
  | advRead (prev rhead : ℕ)
  | advCas (prev rhead : ℕ) (desc : Desc)
  | nextStoreRhead (prev rhead : ℕ)
  | nextLoadEntered (prev rhead : ℕ)
  | relRead (prev rhead : ℕ)
  | relCas (prev rhead : ℕ) (desc : Desc)
  | relConsumed (rhead : ℕ)
  | nextStoreEntered (rhead : ℕ)
  | nextReturn (rhead : ℕ)
  -- kdata_destruct
  | leaveLoadEntered
  | leaveLoadRhead
  | leaveRead (prev : ℕ)
  | leaveCas (prev : ℕ) (desc : Desc)
  | leaveConsumed

/-- A message with its place in the order in which messages were stored. -/
structure Msg (β : Type) where
  seq : ℕ
  data : β
  deriving DecidableEq

structure Writer (β : Type) where
  pc : WriterPc
  /-- What this round stores. -/
  data : β

/-- History variables: no step of the code reads them. -/
@[ext]
structure Hist (β : Type) where
  /-- How many messages were stored in pages. -/
  filled : ℕ
  /-- The messages published by a store of `head->whead`, in order. -/
  written : List β
  /-- The page's message was published, and no writer has passed it over or taken it since. -/
  live : ℕ → Bool
  /-- How many messages were published when the reader loaded `whead` in `kdata_prep_enter`. -/
  entry : ReaderId → ℕ
  /-- What the calls of `kdata_next_generic` returned since then. -/
  recv : ReaderId → List (Option (Msg β))

@[ext]
structure State (W : ℕ) (β : Type) where
  -- kdata_shared_head
  whead : ℕ
  wresv : ℕ
  produced : ℕ
  -- kdata_shared_reader
  rhead : ReaderId → ℕ
  skips : ReaderId → ℕ
  entered : ReaderId → Bool
  consumed : ReaderId → ℕ
  -- kdata_shared_desc and the pages
  desc : ℕ → Desc
  page : ℕ → Option (Msg β)
  writer : Fin W → Writer β
  reader : ReaderId → ReaderPc
  hist : Hist β

section Ring
variable {W : ℕ} {β : Type}

/-- `kdata_init_control` on zeroed memory. -/
def kdataInitControl [Inhabited β] : State W β where
  whead := kdataPrev 0
  wresv := kdataPrev 0
  produced := 0
  rhead := fun _ => 0
  skips := fun _ => 0
  entered := fun _ => false
  consumed := fun _ => 0
  desc := fun _ => 0
  page := fun _ => none
  writer := fun _ => ⟨.idle, default⟩
  reader := fun _ => .detached
  hist := ⟨0, [], fun _ => false, fun _ => 0, fun _ => []⟩

namespace State

def setWriter (s : State W β) (w : Fin W) (pc : WriterPc) : State W β :=
  { s with writer := Function.update s.writer w ⟨pc, (s.writer w).data⟩ }

def setReader (s : State W β) (r : ReaderId) (pc : ReaderPc) : State W β :=
  { s with reader := Function.update s.reader r pc }

def setDesc (s : State W β) (p : ℕ) (d : Desc) : State W β :=
  { s with desc := Function.update s.desc p d }

/-- History: the page's message stops being live. -/
def kill (s : State W β) (p : ℕ) : State W β :=
  { s with hist := { s.hist with live := Function.update s.hist.live p false } }

end State

/-- The test of `kdata_find_write_loc` on the descriptor it read. -/
def findTest (whead : ℕ) (desc : Desc) : WriterPc :=
  if desc &&& kdataDscReaderOwned ≠ 0 ∨ desc &&& kdataDscSkipped ≠ 0 then .findSkip whead desc 0
  else if desc &&& kdataDscWriterOwned ≠ 0 then .findRead (kdataNext whead)
  else .findClaimCas whead desc

/-- The loop head of the skip registration. -/
def skipNext (whead : ℕ) (desc : Desc) (id : ReaderId) : WriterPc :=
  if h : id.val + 1 < kdataReaders then .findSkip whead desc ⟨id.val + 1, h⟩
  else .findSkipCas whead desc

/-- Writer `w` starts a round: FIRST, fill with `data`, SECOND. -/
def startStep (s : State W β) (w : Fin W) (data : β) : Option (State W β) :=
  match (s.writer w).pc with
  | .idle => some { s with writer := Function.update s.writer w ⟨.findLoadWhead, data⟩ }
  | _ => none

/-- The next atomic access of writer `w`. -/
def writerStep (s : State W β) (w : Fin W) : Option (State W β) :=
  match (s.writer w).pc with
  | .idle => none
  | .findLoadWhead => some (s.setWriter w (.findRead (kdataNext s.whead)))
  | .findRead whead => some (s.setWriter w (findTest whead (s.desc whead)))
  | .findSkip whead desc id =>
      if desc &&& kdataDscReaderBit id ≠ 0 then
        some (s.setWriter w (.findSkipStore whead desc id (s.skips id)))
      else some (s.setWriter w (skipNext whead desc id))
  | .findSkipStore whead desc id skips =>
      some ({ s with skips := Function.update s.skips id (skips + 1) }.setWriter w
        (skipNext whead desc id))
  | .findSkipCas whead desc =>
      if s.desc whead = desc then
        some (((s.setDesc whead (desc ||| kdataDscSkipped)).kill whead).setWriter w
          (.findRead (kdataNext whead)))
      else some (s.setWriter w (.findRead whead))
  | .findClaimCas whead desc =>
      if s.desc whead = desc then
        some (((s.setDesc whead (desc ||| kdataDscWriterOwned)).kill whead).setWriter w
          (.firstStoreWresv whead))
      else some (s.setWriter w (.findRead whead))
  | .firstStoreWresv page => some ({ s with wresv := page }.setWriter w (.fill page))
  | .fill page =>
      some ({ s with
        page := Function.update s.page page (some ⟨s.hist.filled, (s.writer w).data⟩)
        hist := { s.hist with filled := s.hist.filled + 1 } }.setWriter w (.secondLoadWresv page))
  | .secondLoadWresv page => some (s.setWriter w (.releaseRead page s.wresv))
  | .releaseRead page wresv => some (s.setWriter w (.releaseCas page wresv (s.desc wresv)))
  | .releaseCas _ wresv desc =>
      -- kdata_write_SECOND drops the result of kdata_writer_release
      if s.desc wresv = desc then
        some ((s.setDesc wresv (desc &&& ~~~kdataDscWriterOwned)).setWriter w
          .secondLoadWresvAgain)
      else some (s.setWriter w .secondLoadWresvAgain)
  | .secondLoadWresvAgain => some (s.setWriter w (.secondStoreWhead s.wresv))
  | .secondStoreWhead wresv =>
      some ({ s with
        whead := wresv
        hist := { s.hist with
          written := s.hist.written ++ [(s.writer w).data]
          live := Function.update s.hist.live wresv true } }.setWriter w .addProduced)
  | .addProduced => some ({ s with produced := s.produced + 1 }.setWriter w .idle)

/-- The next atomic access of reader `r`. -/
def readerStep (s : State W β) (r : ReaderId) : Option (State W β) :=
  match s.reader r with
  | .detached => none
  | .enterLoadWhead =>
      some ({ s with hist := { s.hist with
        entry := Function.update s.hist.entry r s.hist.written.length
        recv := Function.update s.hist.recv r [] } }.setReader r (.enterStoreRhead s.whead))
  | .enterStoreRhead rhead =>
      some ({ s with rhead := Function.update s.rhead r rhead }.setReader r .enterStoreSkips)
  | .enterStoreSkips =>
      some ({ s with skips := Function.update s.skips r 0 }.setReader r .enterStoreEntered)
  | .enterStoreEntered =>
      some ({ s with entered := Function.update s.entered r false }.setReader r
        .enterLoadProduced)
  | .enterLoadProduced => some (s.setReader r (.enterStoreConsumed s.produced))
  | .enterStoreConsumed produced =>
      some ({ s with consumed := Function.update s.consumed r produced }.setReader r .idle)
  | .idle => some (s.setReader r (.availLoadWhead (s.rhead r)))
  | .availLoadWhead rhead =>
      if rhead ≠ s.whead then some (s.setReader r .nextLoadRhead) else some (s.setReader r .idle)
  | .nextLoadRhead => some (s.setReader r (.advRead (s.rhead r) (kdataNext (s.rhead r))))
  | .advRead prev rhead =>
      if s.desc rhead &&& kdataDscWriterOwned = 0 then
        some (s.setReader r (.advCas prev rhead (s.desc rhead)))
      else some (s.setReader r (.advRead prev (kdataNext rhead)))
  | .advCas prev rhead desc =>
      -- a failed compare-and-swap goes on to the next page
      if s.desc rhead = desc then
        some ((s.setDesc rhead (desc ||| kdataDscReaderBit r)).setReader r
          (.nextStoreRhead prev rhead))
      else some (s.setReader r (.advRead prev (kdataNext rhead)))
  | .nextStoreRhead prev rhead =>
      some ({ s with rhead := Function.update s.rhead r rhead }.setReader r
        (.nextLoadEntered prev rhead))
  | .nextLoadEntered prev rhead =>
      if s.entered r then some (s.setReader r (.relRead prev rhead))
      else some (s.setReader r (.nextStoreEntered rhead))
  | .relRead prev rhead => some (s.setReader r (.relCas prev rhead (s.desc prev)))
  | .relCas prev rhead desc =>
      if s.desc prev = desc then
        some ((s.setDesc prev (releaseVal r desc)).setReader r (.relConsumed rhead))
      else some (s.setReader r (.relRead prev rhead))
  | .relConsumed rhead =>
      -- control->reader->consumed is the counter of reader 0
      some ({ s with consumed := Function.update s.consumed 0 (s.consumed 0 + 1) }.setReader r
        (.nextStoreEntered rhead))
  | .nextStoreEntered rhead =>
      some ({ s with entered := Function.update s.entered r true }.setReader r
        (.nextReturn rhead))
  | .nextReturn rhead =>
      some ({ s with hist := { s.hist with
        recv := Function.update s.hist.recv r (s.hist.recv r ++ [s.page rhead]) } }.setReader r
          .idle)
  | .leaveLoadEntered =>
      if s.entered r then some (s.setReader r .leaveLoadRhead) else some (s.setReader r .detached)
  | .leaveLoadRhead => some (s.setReader r (.leaveRead (s.rhead r)))
  | .leaveRead prev => some (s.setReader r (.leaveCas prev (s.desc prev)))
  | .leaveCas prev desc =>
      if s.desc prev = desc then
        some ((s.setDesc prev (releaseVal r desc)).setReader r .leaveConsumed)
      else some (s.setReader r (.leaveRead prev))
  | .leaveConsumed =>
      some ({ s with consumed := Function.update s.consumed 0 (s.consumed 0 + 1) }.setReader r
        .detached)

inductive Act (W : ℕ) (β : Type)
  | start (w : Fin W) (data : β)
  | writer (w : Fin W)
  | attach (r : ReaderId)
  | detach (r : ReaderId)
  | reader (r : ReaderId)

def step (s : State W β) : Act W β → Option (State W β)
  | .start w data => startStep s w data
  | .writer w => writerStep s w
  | .attach r =>
      match s.reader r with
      | .detached => some (s.setReader r .enterLoadWhead)
      | _ => none
  | .detach r =>
      match s.reader r with
      | .idle => some (s.setReader r .leaveLoadEntered)
      | _ => none
  | .reader r => readerStep s r

/-- The ring with `W` writers. -/
def ring (W : ℕ) (β : Type) [Inhabited β] : System (State W β) (Act W β) := ⟨kdataInitControl, step⟩

end Ring

end Netp.Kring.Data
