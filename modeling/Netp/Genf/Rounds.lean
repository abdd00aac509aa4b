import Netp.Lib.Run
import Mathlib.Data.Finset.Basic
import Mathlib.Data.Int.Notation
import Mathlib.Tactic

/-! # The rounds of the loop

`Thread::pselectLoop` (`genf/select.cc`) over its list of descriptors, with the table of numbers that the
system keeps. What is called from the loop (signals, the timer, the resolver, the ready functions and what
these call, messages) may append descriptors, change what they wait for and close them, in any order; the
numbers that are closed are given out again, also within the round. Other threads open and close numbers
at any time.

The list is the sequence that its links make. `loop` and the end of the loop are left out, as are the
errors of `pselect` that are no matter of the descriptors.
-/

namespace Netp.Genf.Rounds
open Netp.Lib
set_option autoImplicit false

abbrev Id := ℕ

/-- The flags of a `SelectFd` that say what it waits for. -/
structure Wants where
  wantRead : Bool
  wantWrite : Bool
  tlsEstablished : Bool
  tlsWantRead : Bool
  tlsWantWrite : Bool
  tlsWriteWantsRead : Bool
  tlsReadWantsWrite : Bool
  deriving DecidableEq

def Wants.wantReadGet (w : Wants) : Bool :=
  if !w.tlsEstablished then w.wantRead else w.tlsWantRead || (w.tlsWantWrite && w.tlsWriteWantsRead)

def Wants.wantWriteGet (w : Wants) : Bool :=
  if !w.tlsEstablished then w.wantWrite else w.tlsWantWrite || (w.tlsWantRead && w.tlsReadWantsWrite)

structure SelectFd where
  fd : ℤ
  closed : Bool
  wants : Wants
  deriving DecidableEq

/-- Who has a number open: a descriptor of the loop, its resolver, or another part of the process. -/
inductive Owner
  | selectFd (x : Id)
  | resolver
  | other
  deriving DecidableEq

/-! ## Descriptors and numbers -/

/-- `selectFdList` with the descriptors that it names, and the numbers that are open. -/
structure World where
  fds : Id → SelectFd
  next : Id
  selectFdList : List Id
  table : ℤ → Option Owner

/-- What the callbacks do. -/
inductive Use
  /-- A new descriptor, with a number that has just been opened, or −1 where that failed. It is closed
  already where a host name was looked up for a connection that has been closed meanwhile. -/
  | append (n : ℤ) (closed : Bool) (wants : Wants)
  | want (x : Id) (wants : Wants)
  /-- `Connection::close`, the end of a write buffer, or a shutdown of the proxy. The last two do not look
  whether the descriptor is closed already. -/
  | close (x : Id)
  /-- `Process::bufClose` -/
  | bufClose (x : Id)
  /-- Numbers without a descriptor. -/
  | openOther (n : ℤ) (resolver : Bool)
  | closeOther (n : ℤ) (resolver : Bool)

/-- What other threads may do at any time. -/
def Use.elsewhere : Use → Bool
  | .openOther _ resolver | .closeOther _ resolver => !resolver
  | _ => false

def other (resolver : Bool) : Owner := if resolver then .resolver else .other

namespace World

def setFd (w : World) (x : Id) (f : SelectFd) : World := { w with fds := Function.update w.fds x f }

def setTable (w : World) (n : ℤ) (o : Option Owner) : World := { w with table := Function.update w.table n o }

/-- `close( n )` of the system. -/
def sysClose (w : World) (n : ℤ) : World := if 0 ≤ n then w.setTable n none else w

def push (w : World) (f : SelectFd) : World :=
  { w with
    fds := Function.update w.fds w.next f
    next := w.next + 1
    selectFdList := w.selectFdList ++ [w.next] }

def use (w : World) : Use → Option World
  | .append n closed wants =>
      if n = -1 ∨ (0 ≤ n ∧ w.table n = none) then
        some ((if 0 ≤ n then w.setTable n (some (.selectFd w.next)) else w).push ⟨n, closed, wants⟩)
      else none
  | .want x wants => if x < w.next then some (w.setFd x { w.fds x with wants := wants }) else none
  | .close x =>
      if x < w.next then some ((w.sysClose (w.fds x).fd).setFd x { w.fds x with closed := true }) else none
  | .bufClose x =>
      if x < w.next then some ((w.sysClose (w.fds x).fd).setFd x { w.fds x with closed := false }) else none
  | .openOther n resolver =>
      if 0 ≤ n ∧ w.table n = none then some (w.setTable n (some (other resolver))) else none
  | .closeOther n resolver => if w.table n = some (other resolver) then some (w.setTable n none) else none

/-- The closed descriptors leave the list. -/
def detach (w : World) : World :=
  { w with selectFdList := w.selectFdList.filter fun x => !(w.fds x).closed }

end World

/-! ## The sets -/

def fdSetsize : ℤ := 1024

/-- The numbers that an `fd_set` has a place for. -/
def inRange (n : ℤ) : Bool := 0 ≤ n ∧ n < fdSetsize

/-- The sets of a round. `twice` is whether it has been logged that a number was added more than once. -/
structure Sets where
  readSet : Finset ℤ
  writeSet : Finset ℤ
  nfds : ℤ
  twice : Bool

namespace Sets

/-- A descriptor comes into the sets, unless its number has no place there. -/
def add (b : Sets) (f : SelectFd) : Option Sets :=
  let wantRead := f.wants.wantReadGet
  let wantWrite := f.wants.wantWriteGet
  if (wantRead || wantWrite) && !inRange f.fd then none
  else some
    { readSet := if wantRead then insert f.fd b.readSet else b.readSet
      writeSet := if wantWrite then insert f.fd b.writeSet else b.writeSet
      nfds := if (wantRead || wantWrite) && decide (b.nfds ≤ f.fd) then f.fd + 1 else b.nfds
      twice := b.twice || (wantRead && decide (f.fd ∈ b.readSet)) || (wantWrite && decide (f.fd ∈ b.writeSet)) }

/-- `pselect` looks at the numbers below `nfds`, and leaves those that are ready. -/
def select (b : Sets) (read write : Finset ℤ) : Sets :=
  { b with
    readSet := read ∪ b.readSet.filter fun n => b.nfds ≤ n
    writeSet := write ∪ b.writeSet.filter fun n => b.nfds ≤ n }

/-- One of the numbers is not open. -/
def Bad (b : Sets) (table : ℤ → Option Owner) : Prop :=
  ∃ n ∈ b.readSet ∪ b.writeSet, n < b.nfds ∧ table n = none

instance (b : Sets) (table : ℤ → Option Owner) : Decidable (b.Bad table) :=
  inferInstanceAs (Decidable (∃ n ∈ b.readSet ∪ b.writeSet, n < b.nfds ∧ table n = none))

end Sets

/-! ## Rounds -/

inductive Pos
  /-- Before the first round and between two, while messages are polled. -/
  | outside
  /-- Behind the loop that builds the sets. -/
  | built
  /-- Signals, the timer and the resolver; `ready` is whether the result of `pselect` is positive. -/
  | handlers (ready : Bool)
  /-- The loop over the list is at this element, or in its ready function. -/
  | look (i : ℕ)
  | visit (i : ℕ) (readReady writeReady : Bool)
  /-- An `fd_set` was used outside its bounds, or `pselect` was given a number that is not open. -/
  | stopped
  deriving DecidableEq

def Pos.calls : Pos → Bool
  | .outside | .handlers _ | .visit _ _ _ => true
  | _ => false

/-- `built` to `visited` are history: the list and the descriptors that the sets of the round were built
from, the numbers of the resolver, what `pselect` reported, and the visits. -/
structure State where
  world : World
  pos : Pos
  sets : Sets
  built : List Id
  asked : Id → SelectFd
  aresRead : Finset ℤ
  aresWrite : Finset ℤ
  readyRead : Finset ℤ
  readyWrite : Finset ℤ
  visited : List Id

/-- How `pselect` ends. -/
inductive Outcome
  | ready (read write : Finset ℤ)
  | timeout
  | eintr
  | eagain

inductive Act
  | use (u : Use)
  | build (aresRead aresWrite : Finset ℤ) (nfds : ℤ)
  | pselect (outcome : Outcome)
  | handled
  | look
  | leave

/-- `ares_fds`: numbers of the resolver, which are not those of descriptors. -/
def Resolver (table : ℤ → Option Owner) (aresRead aresWrite : Finset ℤ) (nfds : ℤ) : Prop :=
  ∀ n ∈ aresRead ∪ aresWrite, table n = some .resolver ∧ n < nfds

instance (table : ℤ → Option Owner) (aresRead aresWrite : Finset ℤ) (nfds : ℤ) :
    Decidable (Resolver table aresRead aresWrite nfds) :=
  inferInstanceAs (Decidable (∀ n ∈ aresRead ∪ aresWrite, table n = some .resolver ∧ n < nfds))

namespace State

def atPos (s : State) (pos : Pos) : State := { s with pos := pos }

/-- What `pselect` leaves in the sets and reports. An error leaves the sets as they are. -/
def pselect (s : State) : Outcome → Option State
  | .ready read write =>
      if read ⊆ s.sets.readSet.filter (· < s.sets.nfds) ∧ write ⊆ s.sets.writeSet.filter (· < s.sets.nfds) ∧
          (read ∪ write).Nonempty then
        some { s with
          sets := s.sets.select read write
          readyRead := read
          readyWrite := write
          pos := .handlers true }
      else none
  | .timeout => some { s with sets := s.sets.select ∅ ∅, pos := .handlers false }
  | .eintr => some (s.atPos .outside)
  | .eagain => some (s.atPos (.handlers false))

/-- The sets of the next round. -/
def build (s : State) (aresRead aresWrite : Finset ℤ) (nfds : ℤ) : State :=
  let w := s.world.detach
  match w.selectFdList.foldlM (fun b x => b.add (w.fds x)) (Sets.mk aresRead aresWrite nfds false) with
  | none => { s with world := w, pos := .stopped }
  | some sets => ⟨w, .built, sets, w.selectFdList, w.fds, aresRead, aresWrite, ∅, ∅, []⟩

/-- An element of the list: a closed one is skipped, and a ready one is visited. -/
def look (s : State) (i : ℕ) (x : Id) : State :=
  let f := s.world.fds x
  if f.closed then s.atPos (.look (i + 1))
  else if !inRange f.fd then s.atPos .stopped
  else
    let readReady := decide (f.fd ∈ s.sets.readSet)
    let writeReady := decide (f.fd ∈ s.sets.writeSet)
    if readReady || writeReady then
      { s with pos := .visit i readReady writeReady, visited := s.visited ++ [x] }
    else s.atPos (.look (i + 1))

end State

def step (s : State) : Act → Option State
  | .use u => if s.pos.calls || u.elsewhere then (s.world.use u).map fun w => { s with world := w } else none
  | .build aresRead aresWrite nfds =>
      if s.pos = .outside ∧ Resolver s.world.table aresRead aresWrite nfds then
        some (s.build aresRead aresWrite nfds)
      else none
  | .pselect outcome =>
      if s.pos = .built then
        if s.sets.Bad s.world.table then some (s.atPos .stopped) else s.pselect outcome
      else none
  | .handled =>
      match s.pos with
      | .handlers ready => some (s.atPos (if ready then .look 0 else .outside))
      | _ => none
  | .look =>
      match s.pos with
      | .look i =>
          match s.world.selectFdList[i]? with
          | none => some (s.atPos .outside)
          | some x => some (s.look i x)
      | _ => none
  | .leave =>
      match s.pos with
      | .visit i _ _ => some (s.atPos (.look (i + 1)))
      | _ => none

def noFd : SelectFd := ⟨-1, true, ⟨false, false, false, false, false, false, false⟩⟩

def init : State where
  world := ⟨fun _ => noFd, 0, [], fun _ => none⟩
  pos := .outside
  sets := ⟨∅, ∅, 0, false⟩
  built := []
  asked _ := noFd
  aresRead := ∅
  aresWrite := ∅
  readyRead := ∅
  readyWrite := ∅
  visited := []

def system : System State Act := ⟨init, step⟩

end Netp.Genf.Rounds
