import Netp.Lib.Run
import Mathlib.Data.Int.Notation
import Mathlib.Data.Nat.Notation

/-! # The certificate contexts of the proxy

`ContextMap::serverCtx` and `ContextMap::addKeys` (`tlsproxy/proxy.cc`), called by any number of threads
in any order. A section under the mutex is one step, and what is done between two of them (the making of
a key, of a certificate, of a context) is a step too.

Keys and contexts stand for the objects that the pointers of the source lead to: a key is known by the
number of the `genrsa` that made it, and a context by the certificate in it.
-/

namespace Netp.Tlsproxy
open Netp.Lib
set_option autoImplicit false

/-- What `sign_cert` makes. -/
structure X509 (Host : Type) where
  serial : ℤ
  pkey : ℕ
  host : Host

/-- What `sslCtxServer` makes of a key and a certificate. -/
structure SslCtx (Host : Type) where
  pkey : ℕ
  x509 : X509 Host

structure ContextMap (Host : Type) where
  /-- No record, a record without a value, or one with a value. -/
  ctxMap : Host → Option (Option (SslCtx Host))
  keyList : List ℕ
  serial : ℤ

/-- Where a call of `serverCtx` is. -/
inductive Place (Host : Type)
  | start
  /-- Behind the first section, with `create` set. -/
  | create (useSerial : ℤ) (pkey : Option ℕ) (store : Bool)
  /-- With a new context, before the second section. -/
  | store (ctx : SslCtx Host)
  | rtn (rtnVal : SslCtx Host)

structure Call (Host : Type) where
  host : Host
  /-- History: the value of the host when the call began. -/
  before : Option (SslCtx Host)
  place : Place Host

/-- History: a call that has returned. -/
structure Returned (Host : Type) where
  host : Host
  before : Option (SslCtx Host)
  rtnVal : SslCtx Host

section Step
variable {Host : Type} [DecidableEq Host]

namespace ContextMap

/-- The part of the first section for `create`. -/
def take (m : ContextMap Host) (store : Bool) : ContextMap Host × Place Host :=
  ({ m with keyList := m.keyList.tail, serial := m.serial + 1 },
    .create m.serial m.keyList.head? store)

/-- The first section of `serverCtx`. -/
def enter (m : ContextMap Host) (host : Host) : ContextMap Host × Place Host :=
  match m.ctxMap host with
  | none => { m with ctxMap := Function.update m.ctxMap host (some none) }.take true
  | some (some ctx) => (m, .rtn ctx)
  | some none => m.take false

/-- The second section of `serverCtx`, at the record that the first one has found. -/
def store (m : ContextMap Host) (host : Host) (ctx : SslCtx Host) : ContextMap Host :=
  { m with ctxMap := Function.update m.ctxMap host (some (some ctx)) }

end ContextMap

/-- The proxy threads, and the threads that add keys. -/
structure Proxies (Host : Type) where
  map : ContextMap Host
  /-- The calls of `serverCtx`, by thread. -/
  threads : List (Option (Call Host))
  /-- The calls of `addKeys`: the rounds that are left, and the key that is not yet in the list. -/
  adders : List (ℕ × Option ℕ)
  /-- The number of calls of `genrsa`. -/
  genrsa : ℕ
  /-- History: the certificates, the values written to the map, and the calls that have returned. -/
  certs : List (X509 Host)
  writes : List (Host × SslCtx Host)
  returns : List (Returned Host)

inductive Action (Host : Type)
  /-- One more proxy thread. -/
  | spawn
  | call (i : ℕ) (host : Host)
  | enter (i : ℕ)
  | makeCert (i : ℕ)
  | store (i : ℕ)
  | rtn (i : ℕ)
  | addKeys (amt : ℤ)
  | genrsa (j : ℕ)
  | append (j : ℕ)

namespace Proxies

/-- The call that a thread is in. -/
def callOf (s : Proxies Host) (i : ℕ) : Option (Call Host) := (s.threads[i]?).join

def setCall (s : Proxies Host) (i : ℕ) (c : Option (Call Host)) : Proxies Host :=
  { s with threads := s.threads.set i c }

/-- `makeCert`, which makes a key if it is given none, and `sslCtxServer`. -/
def makeCert (s : Proxies Host) (host : Host) (useSerial : ℤ) (pkey : Option ℕ) :
    Proxies Host × SslCtx Host :=
  match pkey with
  | some pkey =>
      let x509 : X509 Host := ⟨useSerial, pkey, host⟩
      ({ s with certs := s.certs ++ [x509] }, ⟨pkey, x509⟩)
  | none =>
      let x509 : X509 Host := ⟨useSerial, s.genrsa, host⟩
      ({ s with genrsa := s.genrsa + 1, certs := s.certs ++ [x509] }, ⟨s.genrsa, x509⟩)

def step (s : Proxies Host) : Action Host → Option (Proxies Host)
  | .spawn => some { s with threads := s.threads ++ [none] }
  | .call i host =>
      match s.threads[i]? with
      | some none => some (s.setCall i (some ⟨host, (s.map.ctxMap host).join, .start⟩))
      | _ => none
  | .enter i =>
      match s.callOf i with
      | some ⟨host, before, .start⟩ =>
          let (m, place) := s.map.enter host
          some ({ s with map := m }.setCall i (some ⟨host, before, place⟩))
      | _ => none
  | .makeCert i =>
      match s.callOf i with
      | some ⟨host, before, .create useSerial pkey store⟩ =>
          let (s, ctx) := s.makeCert host useSerial pkey
          some (s.setCall i (some ⟨host, before, if store then .store ctx else .rtn ctx⟩))
      | _ => none
  | .store i =>
      match s.callOf i with
      | some ⟨host, before, .store ctx⟩ =>
          some ({ s with map := s.map.store host ctx, writes := s.writes ++ [(host, ctx)] }.setCall i
            (some ⟨host, before, .rtn ctx⟩))
      | _ => none
  | .rtn i =>
      match s.callOf i with
      | some ⟨host, before, .rtn rtnVal⟩ =>
          some ({ s with returns := s.returns ++ [Returned.mk host before rtnVal] }.setCall i none)
      | _ => none
  | .addKeys amt => some { s with adders := s.adders ++ [(amt.toNat, none)] }
  | .genrsa j =>
      match s.adders[j]? with
      | some (n + 1, none) =>
          some { s with adders := s.adders.set j (n, some s.genrsa), genrsa := s.genrsa + 1 }
      | _ => none
  | .append j =>
      match s.adders[j]? with
      | some (n, some pkey) =>
          some { s with
            adders := s.adders.set j (n, none)
            map := { s.map with keyList := s.map.keyList ++ [pkey] } }
      | _ => none

end Proxies

/-- The runs that begin with a serial number as it is loaded. -/
def serverCtx (Host : Type) [DecidableEq Host] (serial : ℤ) : System (Proxies Host) (Action Host) where
  init := ⟨⟨fun _ => none, [], serial⟩, [], [], 0, [], [], []⟩
  step := Proxies.step

end Step

/-! ## What the calls leave behind -/

section Claims
variable {Host : Type}

/-- The certificate of this call is not made yet. -/
def Place.creating : Place Host → Bool
  | .create _ _ _ => true
  | _ => false

structure Proxies.Certified (serial : ℤ) (s : Proxies Host) : Prop where
  serials : (s.certs.map X509.serial).Nodup
  keys : (s.certs.map X509.pkey).Nodup
  /-- A host is written at most once, and its value is the one written. -/
  once : (s.writes.map Prod.fst).Nodup
  value : ∀ host ctx, s.map.ctxMap host = some (some ctx) ↔ (host, ctx) ∈ s.writes
  returned : ∀ r ∈ s.returns, ∀ ctx, r.before = some ctx → r.rtnVal = ctx
  /-- The numbers taken are those of the certificates made and of those in the making. -/
  count : s.map.serial = serial + s.certs.length +
    s.threads.countP fun c => c.any fun c => c.place.creating

end Claims

end Netp.Tlsproxy
