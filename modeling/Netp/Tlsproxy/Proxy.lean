import Mathlib.Data.List.Basic
import Mathlib.Logic.Function.Basic
import Netp.Lib.Run

/-! # The two halves of a proxied connection

`FdDesc`, `proxyWrite` and `sslReadReady` of `tlsproxy/proxy.cc`. What is read from one half goes to
the write blocks of the other and from there out of it.

One thread serves both halves. A step is an event it takes up, or one round of the loop it is in:
one `tlsRead` in `sslReadReady`, one `tlsWrite` in `proxyWrite`.
-/

namespace Netp.Tlsproxy
open Netp.Lib
set_option autoImplicit false

/-! ## Write blocks -/

/-- `kdata_decrypted_max_data`: a page less `struct kdata_decrypted_header`. -/
def kdataDecryptedMaxData : ℕ := 4096 - 80

/-- The bytes of `data` up to `tail`, and how many of them are consumed. -/
structure WriteBlock (blocklen : ℕ) where
  data : List UInt8
  head : ℕ
  head_le : head ≤ data.length
  fits : data.length ≤ blocklen

namespace WriteBlock
variable {blocklen : ℕ}

def tail (b : WriteBlock blocklen) : ℕ := b.data.length

def new : WriteBlock blocklen := ⟨[], 0, Nat.le_refl _, Nat.zero_le _⟩

/-- Bytes that came in at `tail`; a read is given no more room than there is. -/
def fill (b : WriteBlock blocklen) (bs : List UInt8) : WriteBlock blocklen where
  data := b.data ++ bs.take (blocklen - b.tail)
  head := b.head
  head_le := by
    rw [List.length_append]
    exact Nat.le_add_right_of_le b.head_le
  fits := by
    have := b.fits
    rw [List.length_append, List.length_take]
    unfold tail
    omega

end WriteBlock

/-! ## One half -/

structure FdDesc (blocklen : ℕ) where
  wbList : List (WriteBlock blocklen)
  stop : Bool
  /-- Of `proxyConn->selectFd`: whether its state is `TlsEstablished`, and its flags. -/
  established : Bool
  tlsWantWrite : Bool
  closed : Bool
  /-- What was read from the peer for this half, what its `tlsWrite` took, and what
  `handler.decrypted` was given. -/
  input : List UInt8
  accepted : List UInt8
  decrypted : List UInt8

namespace FdDesc
variable {blocklen : ℕ}

def readAvail (d : FdDesc blocklen) : ℕ :=
  match d.wbList.getLast? with
  | none => 0
  | some b => blocklen - b.tail

def addSpace (d : FdDesc blocklen) : FdDesc blocklen :=
  { d with wbList := d.wbList ++ [WriteBlock.new] }

/-- `bs` at `readTo`, and `readIn`. -/
def readIn (d : FdDesc blocklen) (bs : List UInt8) : FdDesc blocklen :=
  match d.wbList.getLast? with
  | none => d
  | some b => { d with wbList := d.wbList.dropLast ++ [b.fill bs] }

/-- What is at the address: in the first block, at the offset of the last. -/
def writeFrom (d : FdDesc blocklen) : List UInt8 :=
  match d.wbList.head?, d.wbList.getLast? with
  | some first, some last => first.data.drop last.head
  | _, _ => []

def writeAvail (d : FdDesc blocklen) : ℕ :=
  match d.wbList with
  | [] => 0
  | b :: _ => b.tail - b.head

def consume (d : FdDesc blocklen) (amount : ℕ) : FdDesc blocklen :=
  match d.wbList with
  | [] => d
  | b :: rest =>
      if h : b.head + amount ≥ b.tail then { d with wbList := rest }
      else { d with wbList :=
        { b with head := b.head + amount, head_le := Nat.le_of_lt (Nat.lt_of_not_le h) } :: rest }

end FdDesc

/-! ## Both halves -/

inductive Half
  | client
  | server
  deriving DecidableEq

def Half.other : Half → Half
  | .client => .server
  | .server => .client

/-- Where the thread is: in the event loop, in `sslReadReady` for a half, or in `proxyWrite` for a
half, called by `sslReadReady` or not. -/
inductive Pc
  | idle
  | reading (r : Half)
  | writing (w : Half) (fromRead : Bool)
  deriving DecidableEq

structure Proxy (blocklen : ℕ) where
  desc : Half → FdDesc blocklen
  pc : Pc

inductive ReadRes
  | read (bs : List UInt8)
  | error

inductive WriteRes
  | wrote (k : ℕ)
  | error

section Proxy
variable {blocklen : ℕ}

def Proxy.set (s : Proxy blocklen) (h : Half) (d : FdDesc blocklen) : Proxy blocklen :=
  { s with desc := Function.update s.desc h d }

def proxyShutdown (h : Half) (s : Proxy blocklen) : Proxy blocklen :=
  (s.set h { s.desc h with closed := true }).set h.other
    { s.desc h.other with closed := true, stop := true }

/-- `proxyWrite` returns; `sslReadReady` goes on unless its half is closed. -/
def writeReturns (w : Half) (fromRead : Bool) (s : Proxy blocklen) : Proxy blocklen :=
  { s with pc := if fromRead ∧ (s.desc w.other).closed = false then .reading w.other else .idle }

def proxyWrite (w : Half) (fromRead : Bool) (s : Proxy blocklen) : Proxy blocklen :=
  if (s.desc w).established then { s with pc := .writing w fromRead }
  else writeReturns w fromRead (s.set w { s.desc w with tlsWantWrite := true })

/-- A round of the loop of `proxyWrite`. -/
def writeRound (w : Half) (fromRead : Bool) (res : WriteRes) (s : Proxy blocklen) :
    Proxy blocklen :=
  let d := s.desc w
  let length := d.writeAvail
  if length = 0 then writeReturns w fromRead (s.set w { d with tlsWantWrite := false })
  else
    match res with
    | .error => writeReturns w fromRead (proxyShutdown w s)
    | .wrote k =>
        let written := min k length
        if written = 0 then writeReturns w fromRead (s.set w { d with tlsWantWrite := true })
        else
          let data := d.writeFrom.take written
          let d := { d with accepted := d.accepted ++ data, decrypted := d.decrypted ++ data }
          s.set w (d.consume written)

/-- A round of the loop of `sslReadReady`. -/
def readRound (r : Half) (res : ReadRes) (s : Proxy blocklen) : Proxy blocklen :=
  let d := s.desc r.other
  let d := if d.readAvail = 0 then d.addSpace else d
  let s := s.set r.other d
  match res with
  | .error => { proxyShutdown r s with pc := .idle }
  | .read bs =>
      let bs := bs.take d.readAvail
      if bs.length = 0 then { s with pc := .idle }
      else
        let d := { d with input := d.input ++ bs }
        proxyWrite r.other true (s.set r.other (d.readIn bs))

/-! ## Runs -/

inductive Act
  | established (h : Half)
  | readReady (r : Half)
  | writeReady (w : Half)
  | tlsRead (res : ReadRes)
  | tlsWrite (res : WriteRes)

def step (s : Proxy blocklen) (a : Act) : Option (Proxy blocklen) :=
  match s.pc, a with
  | .idle, .established h => some (s.set h { s.desc h with established := true })
  | .idle, .readReady r =>
      if (s.desc r).established ∧ (s.desc r).closed = false then some { s with pc := .reading r }
      else none
  | .idle, .writeReady w =>
      if (s.desc w).established ∧ (s.desc w).tlsWantWrite then some (proxyWrite w false s) else none
  | .reading r, .tlsRead res => some (readRound r res s)
  | .writing w fromRead, .tlsWrite res => some (writeRound w fromRead res s)
  | _, _ => none

def start : Proxy blocklen := ⟨fun _ => ⟨[], false, false, false, false, [], [], []⟩, .idle⟩

end Proxy

def system (blocklen : ℕ) : System (Proxy blocklen) Act := ⟨start, step⟩

end Netp.Tlsproxy
