import Netp.Lib.History
import Netp.Lib.Run
import Netp.Genf.HostMatch

/-! # The life of a connection

How a connection gets from `initiate` or from the listener to the state in which its data is passed
on: the ready functions of `genf/connection.cc`, the handshakes of `genf/tls.cc` and the host lookup of
`genf/lookup.cc`, with the callbacks that they make. A callback changes what its connection waits for,
closes it or marks its descriptor as closed, in any order (`Use`). Callbacks that set the state of the
descriptor back, start TLS on it or initiate the connection again, as some of `tlsproxy` and `parse` do, are
not modelled.

The history has the results that the loop gets from the resolver, from the system and from the TLS library,
the callbacks, and the points where the connection is closed or its descriptor is marked as closed.
-/

namespace Netp.Genf.Life
open Netp.Lib
set_option autoImplicit false

/-! ## The handshakes -/

/-- `SelectFd::State`. -/
inductive State
  | lookup
  | connect
  | tlsAccept
  | tlsConnect
  | tlsEstablished
  | established
  deriving DecidableEq

/-- `Connection::FailType`. -/
inductive FailType
  | sslReadFailure
  | sslPeerFailedVerify
  | sslPeerCnHostMismatch
  | sslAcceptError
  | asyncConnectFailed
  | lookupFailure
  deriving DecidableEq

inductive Callback
  | failure (failType : FailType)
  | connectComplete
  | notifyAccept
  | readReady
  | writeReady
  deriving DecidableEq

/-- The result of `SSL_connect` or `SSL_accept`: a success, with what `SSL_get_verify_result` and
`SSL_get_peer_certificate` then say, or what `SSL_get_error` makes of a failure. -/
inductive SslResult
  | success (verifyResult : ℤ) (peer : Option X509)
  | wantRead
  | wantWrite
  | error

def X509_V_OK : ℤ := 0

/-- The part of a `SelectFd` that the handshakes use. `ssl` is the TLS object, if there is one, with
the server name it was given. -/
structure Fd where
  state : State
  wantRead : Bool
  wantWrite : Bool
  tlsWantRead : Bool
  tlsEstablished : Bool
  sslVerifyError : Bool
  ssl : Option (Option (List UInt8))
  remoteHost : Option (List UInt8)

/-- What a ready function ends with: nothing, a callback, or `failure` and then `close`. -/
inductive Next
  | done
  | call (cb : Callback)
  | fail (failType : FailType)

def startTlsClient (remoteHost : Option (List UInt8)) (fd : Fd) : Fd :=
  { fd with
    ssl := some remoteHost
    remoteHost := fd.remoteHost.or remoteHost
    wantRead := false
    wantWrite := true }

def startTlsServer (fd : Fd) : Fd := { fd with ssl := some none, wantRead := true, wantWrite := false }

/-- `connConnectReady`, with the `SO_ERROR` of the socket. -/
def connConnectReady (tlsConnect writeReady : Bool) (option : ℤ) (fd : Fd) : Fd × Next :=
  if writeReady then
    let fd := { fd with wantWrite := false }
    if option = 0 then
      if tlsConnect then ({ startTlsClient fd.remoteHost fd with state := .tlsConnect }, .done)
      else ({ fd with state := .established, wantRead := true }, .call .connectComplete)
    else (fd, .fail .asyncConnectFailed)
  else (fd, .done)

/-- The flags, and whether to retry. -/
def prepNextRound (result : SslResult) (fd : Fd) : Fd × Bool :=
  match result with
  | .wantRead => ({ fd with wantRead := true, wantWrite := false }, true)
  | .wantWrite => ({ fd with wantRead := false, wantWrite := true }, true)
  | _ => ({ fd with wantRead := false, wantWrite := false }, false)

/-- `connTlsAcceptReady`. -/
def connTlsAcceptReady (result : SslResult) (fd : Fd) : Fd × Next :=
  match result with
  | .success _ _ => ({ fd with state := .tlsEstablished, tlsEstablished := true }, .call .notifyAccept)
  | result =>
      let r := prepNextRound result fd
      (r.1, if r.2 then .done else .call (.failure .sslAcceptError))

section Connect
variable (check : X509 → List UInt8 → Bool)

/-- `hostMatch` for a descriptor, over the one for a certificate or the function of the library that
takes its place. There is no result where a null pointer is taken for the name. -/
def hostMatch (peer : Option X509) (name : Option (List UInt8)) : Option Bool :=
  match peer with
  | none => some false
  | some cert => name.map (check cert)

/-- `connTlsConnectReady`. -/
def connTlsConnectReady (checkHost : Bool) (result : SslResult) (fd : Fd) : Option (Fd × Next) :=
  match result with
  | .success verifyResult peer =>
      if verifyResult ≠ X509_V_OK then
        some ({ fd with sslVerifyError := true }, .fail .sslPeerFailedVerify)
      else
        (if checkHost then hostMatch check peer fd.remoteHost else some true).map fun matched =>
          if matched then
            ({ fd with state := .tlsEstablished, tlsEstablished := true, tlsWantRead := true },
              .call .connectComplete)
          else ({ fd with sslVerifyError := true }, .fail .sslPeerCnHostMismatch)
  | result => some ((prepNextRound result fd).1, .done)

end Connect

/-! ## A connection in the loop -/

inductive Event
  /-- The loop comes to the descriptor. -/
  | visit
  | lookedUp (found : Bool)
  | connected (option : ℤ)
  | sslConnect (result : SslResult)
  | sslAccept (result : SslResult)
  | call (cb : Callback)
  /-- `Connection::close` -/
  | close
  /-- `SelectFd::closed` set without it, by a write buffer that is done. -/
  | mark

/-- `selectFd` is whether the connection's own pointer to the descriptor is not null, `pending` whether
the resolver has a query for it, `listed` whether the loop has it on its list. -/
structure Conn where
  fd : Fd
  tlsWantWrite : Bool
  closed : Bool
  selectFd : Bool
  pending : Bool
  listed : Bool
  log : List Event

/-- How a connection comes about: `initiate` with a host to look up or with an address, or `accept`. -/
inductive Start
  | initiate (host : Option (List UInt8)) (tls checkHost : Bool)
  | accept (tls checkHost : Bool)

/-- What is done with a connection by its callbacks and by others. -/
inductive Use
  | wantReadSet (v : Bool)
  | wantWriteSet (v : Bool)
  | close
  | mark

namespace Conn

def note (e : Event) (c : Conn) : Conn := { c with log := c.log ++ [e] }

/-- `Connection::close`. -/
def close (c : Conn) : Conn :=
  if c.selectFd then { c with closed := true, selectFd := false, log := c.log ++ [.close] } else c

/-- Through a null pointer there is no result. -/
def use (u : Use) (c : Conn) : Option Conn :=
  match u with
  | .close => some c.close
  | .wantReadSet v =>
      if c.selectFd then
        if c.fd.tlsEstablished then some { c with fd := { c.fd with tlsWantRead := v } }
        else some { c with fd := { c.fd with wantRead := v } }
      else none
  | .wantWriteSet v =>
      if c.selectFd then
        if c.fd.tlsEstablished then some { c with tlsWantWrite := v }
        else some { c with fd := { c.fd with wantWrite := v } }
      else none
  | .mark => if c.selectFd then some { c with closed := true, log := c.log ++ [.mark] } else none

def uses (body : List Use) (c : Conn) : Option Conn := body.foldlM (fun c u => c.use u) c

/-- A callback, with what it does. -/
def call (cb : Callback) (body : List Use) (c : Conn) : Option Conn := (c.note (.call cb)).uses body

def next (body : List Use) (c : Conn) : Next → Option Conn
  | .done => some c
  | .call cb => c.call cb body
  | .fail failType => (c.call (.failure failType) body).map close

end Conn

/-- What there is at a visit: what `pselect` left in the two sets, the results of the calls that a ready
function makes, and what its callbacks do. -/
structure Visit where
  readReady : Bool
  writeReady : Bool
  option : ℤ
  ssl : SslResult
  body : List Use
  writeBody : List Use

section Loop
variable (check : X509 → List UInt8 → Bool)

def Start.tls : Start → Bool
  | .initiate _ tls _ => tls
  | .accept tls _ => tls

def Start.checkHost : Start → Bool
  | .initiate _ _ checkHost => checkHost
  | .accept _ checkHost => checkHost

def Start.host : Start → Option (List UInt8)
  | .initiate host _ _ => host
  | .accept _ _ => none

/-- A callback that is made if a test says so. -/
def callIf (due : Bool) (cb : Callback) (body : List Use) (c : Conn) : Option Conn :=
  if due then c.call cb body else some c

/-- `connEstablishedReady` -/
def connEstablishedReady (v : Visit) (c : Conn) : Option Conn :=
  (callIf v.readReady .readReady v.body c).bind fun c =>
    callIf (v.writeReady && c.fd.wantWrite) .writeReady v.writeBody c

/-- `connTlsEstablishedReady` -/
def connTlsEstablishedReady (v : Visit) (c : Conn) : Option Conn :=
  (callIf c.fd.tlsWantRead .readReady v.body c).bind fun c =>
    callIf c.tlsWantWrite .writeReady v.writeBody c

/-- `selectFdReady` for a connection. -/
def selectFdReady (how : Start) (v : Visit) (c : Conn) : Option Conn :=
  match c.fd.state with
  | .lookup => some c
  | .connect =>
      let r := connConnectReady how.tls v.writeReady v.option c.fd
      let c := if v.writeReady then c.note (.connected v.option) else c
      { c with fd := r.1 }.next v.body r.2
  | .tlsAccept =>
      let r := connTlsAcceptReady v.ssl c.fd
      { c.note (.sslAccept v.ssl) with fd := r.1 }.next v.body r.2
  | .tlsConnect =>
      (connTlsConnectReady check how.checkHost v.ssl c.fd).bind fun r =>
        { c.note (.sslConnect v.ssl) with fd := r.1 }.next v.body r.2
  | .tlsEstablished => connTlsEstablishedReady v c
  | .established => connEstablishedReady v c

/-- `lookupCallbackHost`, once for each query. -/
def lookupCallbackHost (found : Bool) (body : List Use) (c : Conn) : Option Conn :=
  let c := { c.note (.lookedUp found) with pending := false }
  if found then some { c with fd := { c.fd with state := .connect, wantWrite := true }, listed := true }
  else c.call (.failure .lookupFailure) body

inductive Act
  | visit (v : Visit)
  | lookedUp (found : Bool) (body : List Use)
  /-- Between the visits, by a timer, a message or another connection. -/
  | use (u : Use)

/-- The loop skips closed descriptors. -/
def step (how : Start) (c : Conn) : Act → Option Conn
  | .visit v =>
      if c.listed && !c.closed then selectFdReady check how v (c.note .visit) else none
  | .lookedUp found body => if c.pending then lookupCallbackHost found body c else none
  | .use u => c.use u

/-- `initiate`, and what `listenReady` does with a connection that was accepted; an accepted one without
TLS is told so at once. -/
def start : Start → List Use → Option Conn
  | .initiate (some host) _ _, _ =>
      some ⟨⟨.lookup, false, false, false, false, false, none, some host⟩,
        false, false, true, true, false, []⟩
  | .initiate none _ _, _ =>
      some ⟨⟨.connect, false, true, false, false, false, none, none⟩,
        false, false, true, false, true, []⟩
  | .accept true _, _ =>
      some ⟨startTlsServer ⟨.tlsAccept, false, false, false, false, false, none, none⟩,
        false, false, true, false, true, []⟩
  | .accept false _, body =>
      Conn.call .notifyAccept body ⟨⟨.established, true, false, false, false, false, none, none⟩,
        false, false, true, false, true, []⟩

def system (how : Start) (c : Conn) : System Conn Act := ⟨c, step check how⟩

end Loop

end Netp.Genf.Life
