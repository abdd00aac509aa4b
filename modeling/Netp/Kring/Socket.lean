import Netp.Lib.Run
import Netp.Lib.CString
import Mathlib.Tactic

/-! # KDATA sockets and kernel handles (`kring/socket.c`, `kdata.c`, `kctrl.c`, `attribute.c`)

The kernel side of the rings: ringsets made by `kring_add_data_store` and `kring_add_cmd_store`,
sockets that bind to one ring of a set or to all of them, and handles that other modules open with
`kring_kopen`. Ids of readers and writers are flags in the ring; a search takes the first that is
clear.

A use of a null ringset and an access `ring[i]` with `i` outside the set are faults, and the
operation that makes one has no state after it. What the shared pages hold is left to `Data` and
`Ctrl`: here an operation only gets to know whether a ring has something to read.
-/

namespace Netp.Kring.Socket
open Netp.Lib
set_option autoImplicit false

def kringNlen : ℕ := 32
def kdataMaxRingsPerSet : ℤ := 32
def kringRingIdAll : ℤ := -1

def krOptWriterId : ℤ := 1
def krOptReaderId : ℤ := 2
def krOptRingN : ℤ := 3
def solPacket : ℤ := 263

def kringPgoffCtrl : ℕ := 0
def kringPgoffData : ℕ := 1

def EPERM : ℤ := 1
def EINTR : ℤ := 4
def EBADF : ℤ := 9
def ENOMEM : ℤ := 12
def EFAULT : ℤ := 14
def EINVAL : ℤ := 22
def ENOPROTOOPT : ℤ := 92
def EPROTONOSUPPORT : ℤ := 93
def ESOCKTNOSUPPORT : ℤ := 94

inductive KringType
  | data
  | ctrl
  deriving DecidableEq, Repr

inductive KringMode
  | read
  | write
  deriving DecidableEq, Repr

/-- The enumerator of an `enum KRING_MODE` that comes from user space. -/
def kringMode (mode : ℤ) : Option KringMode :=
  if mode = 1 then some .read else if mode = 2 then some .write else none

/-- What an id is for. -/
inductive Role
  | reader
  | writer
  deriving DecidableEq, Repr

/-- Which of the two `struct kring_params` a ringset has. -/
inductive Params
  | kdata
  | kctrl
  deriving DecidableEq, Repr

/-- `params->readers` and `params->writers`. -/
def Params.ids : Params → Role → ℕ
  | .kdata, .reader => 6
  | .kdata, .writer => 6
  | .kctrl, .reader => 1
  | .kctrl, .writer => 6

structure Ringset where
  name : List UInt8
  params : Params
  nrings : ℕ
  deriving DecidableEq, Repr

/-- `struct kring_ring`: `num .reader` is `num_readers`, `allocated .reader id` is
`reader[id].allocated`. -/
structure Ring where
  num : Role → ℤ := fun _ => 0
  allocated : Role → ℕ → Bool := fun _ _ => false

namespace Ring

/-- The first id that is free on the ring. -/
def freeId (r : Ring) (params : Params) (role : Role) : Option ℕ :=
  (List.range (params.ids role)).find? fun id => !r.allocated role id

def take (r : Ring) (role : Role) (id : ℕ) : Ring where
  num := Function.update r.num role (r.num role + 1)
  allocated := Function.update r.allocated role (Function.update (r.allocated role) id true)

def clear (r : Ring) (role : Role) (id : ℕ) : Ring :=
  { r with allocated := Function.update r.allocated role (Function.update (r.allocated role) id false) }

def drop (r : Ring) (role : Role) : Ring :=
  { r with num := Function.update r.num role (r.num role - 1) }

/-- The shape of the two functions that take an id on one ring. Calls do not overlap, so the compare
and swap finds what the search saw. -/
def allocate (role : Role) (r : Ring) (params : Params) : Option (ℕ × Ring) :=
  (r.freeId params role).map fun id => (id, r.take role id)

def allocateWriterOnRing : Ring → Params → Option (ℕ × Ring) := allocate .writer

def allocateReaderOnRing : Ring → Params → Option (ℕ × Ring) := allocate .reader

end Ring

/-- `struct kring_sock`; `sk_alloc` hands it out zeroed. -/
structure KringSock where
  ringset : Option ℕ := none
  ringId : ℤ := 0
  mode : Option KringMode := none
  writerId : ℤ := 0
  readerId : ℤ := 0
  deriving DecidableEq, Repr

/-- `struct kring_kern`. `opened` is not in the source: the last `kring_kopen` returned 0 and there
was no `kring_kclose` since. -/
structure KringKern where
  ringset : Option ℕ := none
  ringId : ℤ := 0
  mode : Option KringMode := none
  writerId : ℤ := 0
  readerId : ℤ := 0
  opened : Bool := false
  deriving DecidableEq, Repr

/-- The list `head` of ringsets, the ring arrays (`ring k i` is `ring[i]` of the `k`th set), the open
sockets by descriptor and the handles of other modules. -/
structure State where
  head : List Ringset := []
  ring : ℕ → ℕ → Ring := fun _ _ => {}
  socks : ℕ → Option KringSock := fun _ => none
  kerns : ℕ → KringKern := fun _ => {}

inductive Fault
  | nullRingset
  | wildRingset
  | ringIndex (i : ℤ)
  deriving DecidableEq, Repr

/-- What a call hands back: its return value and, for `getsockopt`, the option's. -/
structure Ret where
  code : ℤ
  optval : Option ℤ := none
  deriving DecidableEq, Repr

abbrev Result := Except Fault (Ret × State)

namespace State

def setRing (s : State) (k i : ℕ) (r : Ring) : State :=
  { s with ring := Function.update s.ring k (Function.update (s.ring k) i r) }

/-- One change made to every ring of a set. -/
def mapRings (s : State) (k nrings : ℕ) (f : Ring → Ring) : State :=
  { s with ring := Function.update s.ring k fun i => if i < nrings then f (s.ring k i) else s.ring k i }

def setSock (s : State) (fd : ℕ) (krs : Option KringSock) : State :=
  { s with socks := Function.update s.socks fd krs }

def setKern (s : State) (h : ℕ) (kring : KringKern) : State :=
  { s with kerns := Function.update s.kerns h kring }

/-- `ptr->...` for a pointer to a ringset. -/
def deref (s : State) : Option ℕ → Except Fault (ℕ × Ringset)
  | none => .error .nullRingset
  | some k => match s.head[k]? with
    | none => .error .wildRingset
    | some r => .ok (k, r)

end State

/-- `ringset->ring[i]`. -/
def ringAt (r : Ringset) (i : ℤ) : Except Fault ℕ :=
  if 0 ≤ i ∧ i < r.nrings then .ok i.toNat else .error (.ringIndex i)

/-! ## Ringsets -/

def kringFindRing (s : State) (name : List UInt8) : Option ℕ :=
  s.head.findIdx? fun r => r.name = cstr name

def kringRingsetAlloc (s : State) (params : Params) (name : List UInt8) (nrings : ℕ) : State where
  head := s.head ++ [⟨(cstr name).take (kringNlen - 1), params, nrings⟩]
  ring := Function.update s.ring s.head.length fun _ => {}
  socks := s.socks
  kerns := s.kerns

def kringAddDataStore (s : State) (name : List UInt8) (ringsPerSet : ℤ) : Ret × State :=
  if ringsPerSet < 1 ∨ ringsPerSet > kdataMaxRingsPerSet then (⟨-EINVAL, none⟩, s)
  else (⟨0, none⟩, kringRingsetAlloc s .kdata name ringsPerSet.toNat)

def kringAddCmdStore (s : State) (name : List UInt8) : Ret × State :=
  (⟨0, none⟩, kringRingsetAlloc s .kctrl name 1)

/-! ## Sockets -/

/-- What `kdata_sock_create` finds: the capability, the socket's type, its protocol, and memory. -/
structure CreateArgs where
  capNetAdmin : Bool
  sockRaw : Bool
  ethPAll : Bool
  memory : Bool
  deriving DecidableEq, Repr

def kdataSockCreate (s : State) (fd : ℕ) (args : CreateArgs) : Ret × State :=
  if !args.capNetAdmin then (⟨-EPERM, none⟩, s)
  else if !args.sockRaw then (⟨-ESOCKTNOSUPPORT, none⟩, s)
  else if !args.ethPAll then (⟨-EPROTONOSUPPORT, none⟩, s)
  else if !args.memory then (⟨-ENOMEM, none⟩, s)
  else (⟨0, none⟩, s.setSock fd (some {}))

/-- The arguments of a `getsockopt`; `len` is what `get_user` reads, `put` and `copy` are whether
`put_user` and `copy_to_user` can write. -/
structure OptArgs where
  level : ℤ
  len : Option ℤ
  optname : ℤ
  put : Bool
  copy : Bool
  deriving DecidableEq, Repr

/-- The `switch` of `kring_getsockopt`; `none` is the stack's old content. -/
def kringOpt (s : State) (krs : KringSock) (optname : ℤ) : Except Fault (Option ℤ) :=
  if optname = krOptRingN then (s.deref krs.ringset).map fun kr => some (kr.2.nrings : ℤ)
  else if optname = krOptReaderId then .ok (some krs.readerId)
  else if optname = krOptWriterId then .ok (some krs.writerId)
  else .ok none

def kringGetsockopt (s : State) (krs : KringSock) (args : OptArgs) : Result :=
  if args.level ≠ solPacket then .ok (⟨-ENOPROTOOPT, none⟩, s)
  else match args.len with
  | none => .ok (⟨-EFAULT, none⟩, s)
  | some len =>
    if len ≠ 4 then .ok (⟨-EINVAL, none⟩, s)
    else (kringOpt s krs args.optname).map fun val =>
      if !args.put then (⟨-EFAULT, none⟩, s)
      else if !args.copy then (⟨-EFAULT, none⟩, s)
      else (⟨0, val⟩, s)

def deconPgoff (pgoff : ℕ) : ℕ × ℕ := ((pgoff &&& 0x1f) >>> 0, (pgoff &&& 0x20) >>> 5)

def kringSockMmap (s : State) (krs : KringSock) (pgoff : ℕ) : Result :=
  match krs.ringset with
  | none => .ok (⟨-EINVAL, none⟩, s)
  | some k => (s.deref (some k)).bind fun kr =>
    let (ringId, region) := deconPgoff pgoff
    if ringId > kr.2.nrings then .ok (⟨-EINVAL, none⟩, s)
    else if region = kringPgoffCtrl then (ringAt kr.2 ringId).map fun _ => (⟨0, none⟩, s)
    -- every turn of the loop over the pages goes to the same ring
    else if region = kringPgoffData then (ringAt kr.2 ringId).map fun _ => (⟨0, none⟩, s)
    else .ok (⟨0, none⟩, s)

/-- `struct kring_addr`. -/
structure KringAddr where
  name : Vector UInt8 kringNlen
  ringId : ℤ
  mode : ℤ
  deriving DecidableEq

def sizeofKringAddr : ℤ := 40

/-- A character `validate_ring_name` lets pass. -/
def nameChar (c : UInt8) : Bool :=
  (65 ≤ c && c ≤ 90) || (97 ≤ c && c ≤ 122) || (48 ≤ c && c ≤ 57) || c = 95 || c = 45 || c = 46

def validateRingName : List UInt8 → Bool
  | [] => false
  | c :: cs => if c = 0 then true else if nameChar c then validateRingName cs else false

/-- The checks of `kring_bind`, each of which returns `-EINVAL`. -/
def bindChecks (s : State) (addr : KringAddr) (addrLen : ℤ) : Option (ℕ × Ringset × KringMode) :=
  if addrLen ≠ sizeofKringAddr then none
  else if !validateRingName addr.name.toList then none
  else (kringMode addr.mode).bind fun mode =>
    (kringFindRing s addr.name.toList).bind fun k =>
    (s.head[k]?).bind fun r =>
      if addr.ringId ≠ kringRingIdAll ∧ (addr.ringId < 0 ∨ addr.ringId ≥ r.nrings) then none
      else if mode = .write ∧ addr.ringId = kringRingIdAll then none
      else some (k, r, mode)

/-- The first reader id that is free across all the rings. -/
def freeOnAll (s : State) (k : ℕ) (r : Ringset) : Option ℕ :=
  (List.range (r.params.ids .reader)).find? fun id =>
    (List.range r.nrings).all fun i => !(s.ring k i).allocated .reader id

def allocateReaderAllRings (s : State) (k : ℕ) (r : Ringset) : Option (ℕ × State) :=
  (freeOnAll s k r).map fun id => (id, s.mapRings k r.nrings fun ring => ring.take .reader id)

def kringBind (s : State) (fd : ℕ) (addr : KringAddr) (addrLen : ℤ) : Result :=
  match bindChecks s addr addrLen with
  | none => .ok (⟨-EINVAL, none⟩, s)
  | some (k, r, .write) => (ringAt r addr.ringId).map fun i =>
    match (s.ring k i).allocateWriterOnRing r.params with
    | none => (⟨-EINVAL, none⟩, s)
    | some (writerId, ring) => (⟨0, none⟩, (s.setRing k i ring).setSock fd
        (some ⟨some k, addr.ringId, some .write, writerId, -1⟩))
  | some (k, r, .read) =>
    if addr.ringId ≠ kringRingIdAll then (ringAt r addr.ringId).map fun i =>
      match (s.ring k i).allocateReaderOnRing r.params with
      | none => (⟨-EINVAL, none⟩, s)
      | some (readerId, ring) => (⟨0, none⟩, (s.setRing k i ring).setSock fd
          (some ⟨some k, addr.ringId, some .read, -1, readerId⟩))
    else match allocateReaderAllRings s k r with
      | none => .ok (⟨-EINVAL, none⟩, s)
      | some (readerId, s') => .ok (⟨0, none⟩, s'.setSock fd
          (some ⟨some k, addr.ringId, some .read, -1, readerId⟩))

/-- `kctrl_wait`: the test of `head->free` on the socket's ring. -/
def kctrlWait (r : Ringset) (krs : KringSock) (avail : ℕ → Bool) : Except Fault Bool :=
  (ringAt r krs.ringId).map avail

def kdataKernAvail (r : Ringset) (krs : KringSock) (avail : ℕ → Bool) : Except Fault Bool :=
  if krs.ringId ≠ kringRingIdAll then (ringAt r krs.ringId).map avail
  else (List.range r.nrings).foldlM
    (fun found (i : ℕ) => if found then .ok true else (ringAt r i).map avail) false

/-- `(*r->params->wait)( krs )`. -/
def Params.wait : Params → Ringset → KringSock → (ℕ → Bool) → Except Fault Bool
  | .kdata => kdataKernAvail
  | .kctrl => kctrlWait

/-- `avail` is what the rings' control areas say when the wait looks at them, `signal` that it is
interrupted before one of them has something. -/
def kringRecvmsg (s : State) (krs : KringSock) (avail : ℕ → Bool) (signal : Bool) : Result :=
  (s.deref krs.ringset).bind fun kr => (kr.2.params.wait kr.2 krs avail).map fun found =>
    if !found && signal then (⟨-EINTR, none⟩, s) else (⟨0, none⟩, s)

def kringSendmsg (s : State) (krs : KringSock) : Result :=
  (s.deref krs.ringset).map fun _ => (⟨0, none⟩, s)

def kdataDestruct (s : State) (k : ℕ) (r : Ringset) (krs : KringSock) : Except Fault State :=
  match krs.mode with
  | some .write => (ringAt r krs.ringId).map fun i =>
      s.setRing k i (((s.ring k i).clear .writer krs.writerId.toNat).drop .writer)
  | some .read =>
    if krs.ringId ≠ kringRingIdAll then (ringAt r krs.ringId).map fun i =>
      s.setRing k i ((s.ring k i).clear .reader krs.readerId.toNat)
    else .ok (s.mapRings k r.nrings fun ring => ring.clear .reader krs.readerId.toNat)
  | none => .ok s

def kctrlDestruct (s : State) (k : ℕ) (r : Ringset) (krs : KringSock) : Except Fault State :=
  match krs.mode with
  | some .write => (ringAt r krs.ringId).map fun i =>
      s.setRing k i (((s.ring k i).clear .writer krs.writerId.toNat).drop .writer)
  | some .read => (ringAt r krs.ringId).bind fun i =>
      let s' := s.setRing k i ((s.ring k i).drop .reader)
      if krs.ringId ≠ kringRingIdAll then
        .ok (s'.setRing k i ((s'.ring k i).clear .reader krs.readerId.toNat))
      else .ok (s'.mapRings k r.nrings fun ring => ring.clear .reader krs.readerId.toNat)
  | none => .ok s

def Params.destruct : Params → State → ℕ → Ringset → KringSock → Except Fault State
  | .kdata => kdataDestruct
  | .kctrl => kctrlDestruct

/-- `kring_sock_release` drops the only reference, so `kring_sock_destruct` runs. -/
def kringSockRelease (s : State) (fd : ℕ) (krs : KringSock) : Result :=
  (s.deref krs.ringset).bind fun kr => (kr.2.params.destruct s kr.1 kr.2 krs).map fun s' =>
    (⟨0, none⟩, s'.setSock fd none)

/-! ## Handles of other modules -/

/-- The checks of `kring_kopen`, made before it writes to the handle. -/
def kopenChecks (s : State) (type : KringType) (rsname : List UInt8) (ringId : ℤ)
    (mode : KringMode) : Option (ℕ × Ringset) :=
  if type = .data ∧ mode ≠ .write then none
  else if type = .ctrl ∧ mode ≠ .read then none
  else if ringId = kringRingIdAll then none
  else if type = .ctrl ∧ ringId ≠ 0 then none
  else (kringFindRing s rsname).bind fun k => (s.head[k]?).bind fun r =>
    if ringId < 0 ∨ ringId ≥ r.nrings then none else some (k, r)

def kringKopen (s : State) (h : ℕ) (type : KringType) (rsname : List UInt8) (ringId : ℤ)
    (mode : KringMode) : Result :=
  match kopenChecks s type rsname ringId mode with
  | none => .ok (⟨-1, none⟩, s)
  | some (k, r) => (ringAt r ringId).map fun i =>
    let kring := { s.kerns h with ringset := some k, ringId := ringId }
    match type with
    | .data => match (s.ring k i).allocateWriterOnRing r.params with
      | none => (⟨-EINVAL, none⟩, s.setKern h kring)
      | some (writerId, ring) => (⟨0, none⟩, (s.setRing k i ring).setKern h
          ⟨some k, ringId, some mode, writerId, -1, true⟩)
    | .ctrl => match (s.ring k i).allocateReaderOnRing r.params with
      | none => (⟨-EINVAL, none⟩, s.setKern h kring)
      | some (readerId, ring) => (⟨0, none⟩, (s.setRing k i ring).setKern h
          ⟨some k, ringId, some mode, -1, readerId, true⟩)

def kringKclose (s : State) (h : ℕ) : Result :=
  (s.deref (s.kerns h).ringset).bind fun kr => (ringAt kr.2 (s.kerns h).ringId).map fun i =>
    (⟨0, none⟩, (s.setRing kr.1 i ((s.ring kr.1 i).drop .writer)).setKern h
      { s.kerns h with opened := false })

/-! ## Sequences of operations -/

inductive Op
  | addData (name : List UInt8) (ringsPerSet : ℤ)
  | addCmd (name : List UInt8)
  | create (fd : ℕ) (args : CreateArgs)
  | bind (fd : ℕ) (addr : KringAddr) (addrLen : ℤ)
  | getsockopt (fd : ℕ) (args : OptArgs)
  | mmap (fd : ℕ) (pgoff : ℕ)
  | recvmsg (fd : ℕ) (avail : ℕ → Bool) (signal : Bool)
  | sendmsg (fd : ℕ)
  | release (fd : ℕ)
  | kopen (h : ℕ) (type : KringType) (rsname : List UInt8) (ringId : ℤ) (mode : KringMode)
  | kclose (h : ℕ)

/-- An operation on an open socket; a descriptor that is none is refused before it gets here. -/
def onSock (s : State) (fd : ℕ) (f : KringSock → Result) : Result :=
  match s.socks fd with
  | none => .ok (⟨-EBADF, none⟩, s)
  | some krs => f krs

def step (s : State) : Op → Result
  | .addData name ringsPerSet => .ok (kringAddDataStore s name ringsPerSet)
  | .addCmd name => .ok (kringAddCmdStore s name)
  | .create fd args =>
    match s.socks fd with
    | some _ => .ok (⟨-EBADF, none⟩, s)
    | none => .ok (kdataSockCreate s fd args)
  | .bind fd addr addrLen => onSock s fd fun _ => kringBind s fd addr addrLen
  | .getsockopt fd args => onSock s fd fun krs => kringGetsockopt s krs args
  | .mmap fd pgoff => onSock s fd fun krs => kringSockMmap s krs pgoff
  | .recvmsg fd avail signal => onSock s fd fun krs => kringRecvmsg s krs avail signal
  | .sendmsg fd => onSock s fd fun krs => kringSendmsg s krs
  | .release fd => onSock s fd fun krs => kringSockRelease s fd krs
  | .kopen h type rsname ringId mode => kringKopen s h type rsname ringId mode
  | .kclose h => kringKclose s h

/-- The state after a sequence of operations, or the fault it ends with. -/
def exec (s : State) (ops : List Op) : Except Fault State :=
  ops.foldlM (fun s op => (step s op).map Prod.snd) s

end Netp.Kring.Socket
