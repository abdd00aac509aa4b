import Netp.Lib.CString
import Netp.Genf.Lifecycle
import Netp.Tlsproxy.Proxy

/-! # A proxied connection from its beginning

`ProxyConnection` and the handshake half of `ProxyThread` (`tlsproxy/proxy.cc`) over the ready functions
of the connections and the two halves that data goes through. The connection of the browser, here the
server half, is accepted with TLS; the client half connects to the true server without, and turns to TLS
once the browser has named its host.

The name comes in a callback of the TLS library, inside `SSL_accept`, and when the browser renegotiates
also inside a read or a write of the server half. Then TLS is started once more, over the same socket.

There is no next state where the code goes through a null pointer (`Act.touches`).
-/

namespace Netp.Tlsproxy.Setup
open Netp.Lib Netp.Genf Netp.Genf.Life
set_option autoImplicit false

def verifyResponse : List UInt8 :=
  bytes "HTTP/1.1 422 Unprocessable Entity\r\n\r\nproxy could not verify TLS connection to server\r\n"

inductive Event
  /-- The browser names a host. -/
  | serverName (host : List UInt8)
  /-- `startTlsClient`, with the name for the server -/
  | started (host : List UInt8)
  | connected (option : ℤ)
  | sslConnect (result : SslResult)
  | sslAccept (result : SslResult)
  /-- What `tlsWrite` took, and `handler.decrypted` got. -/
  | wrote (h : Half) (data : List UInt8)

/-- `fd` has what the handshakes use of a half's descriptor, its other fields are with the half in
`proxy`. `selectFd` is whether the pointer of a half's connection to the descriptor is not null. -/
structure Session (blocklen : ℕ) where
  proxy : Proxy blocklen
  fd : Half → Fd
  selectFd : Half → Bool
  connected : Bool
  haveHostname : Bool
  hostname : List UInt8
  log : List Event

section Session
variable {blocklen : ℕ}

namespace Session

def note (e : Event) (s : Session blocklen) : Session blocklen := { s with log := s.log ++ [e] }

def setFd (h : Half) (fd : Fd) (s : Session blocklen) : Session blocklen :=
  { s with
    fd := Function.update s.fd h fd
    proxy := s.proxy.set h { s.proxy.desc h with established := fd.state = .tlsEstablished } }

/-- `Connection::close`. -/
def close (h : Half) (s : Session blocklen) : Session blocklen :=
  if s.selectFd h then
    { s with
      selectFd := Function.update s.selectFd h false
      proxy := s.proxy.set h { s.proxy.desc h with closed := true } }
  else s

/-- The write that a step made for a half, if it made one. -/
def written (h : Half) (p p' : Proxy blocklen) : List Event :=
  match (p'.desc h).accepted.drop (p.desc h).accepted.length with
  | [] => []
  | data => [.wrote h data]

def setProxy (p : Proxy blocklen) (s : Session blocklen) : Session blocklen :=
  { s with proxy := p, log := s.log ++ written .client s.proxy p ++ written .server s.proxy p }

end Session

/-! ## The callbacks of the client half -/

/-- The rounds of a `proxyWrite` for the server half; it would block where there are no results left. -/
def writeRounds : List WriteRes → Proxy blocklen → Proxy blocklen
  | [], p => if p.pc = .writing .server false then writeRound .server false (.wrote 0) p else p
  | res :: results, p =>
      if p.pc = .writing .server false then writeRounds results (writeRound .server false res p) else p

/-- `sslPeerFailedVerify`, and the same in `connectComplete`: the browser gets a response. -/
def sslPeerFailedVerify (writes : List WriteRes) (s : Session blocklen) : Session blocklen :=
  let p := s.proxy.set .server ((s.proxy.desc .server).addSpace.readIn verifyResponse)
  s.setProxy (proxyShutdown .client (writeRounds writes (proxyWrite .server false p)))

/-- `maybeStartTlsClient` for the client half. -/
def maybeStartTlsClient (s : Session blocklen) : Option (Session blocklen) :=
  if s.connected && s.haveHostname then
    if s.selectFd .client then
      some ((s.setFd .client { startTlsClient (some s.hostname) (s.fd .client) with
        state := .tlsConnect }).note (.started s.hostname))
    else none
  else some s

/-- `ProxyThread::connectComplete`, with the beginning of its `sslReadReady`. -/
def threadConnectComplete (writes : List WriteRes) (s : Session blocklen) : Session blocklen :=
  let fd := s.fd .client
  if fd.sslVerifyError then sslPeerFailedVerify writes s
  else
    let s := s.setFd .client { fd with state := .tlsEstablished, tlsEstablished := true, tlsWantRead := true }
    { s with proxy := { s.proxy with pc := .reading .client } }

/-- `ProxyConnection::connectComplete`. -/
def connectComplete (writes : List WriteRes) (s : Session blocklen) : Option (Session blocklen) :=
  let fd := s.fd .client
  match fd.state with
  | .established =>
      -- back to the connect state, until there is a name
      let s := s.setFd .client { fd with state := .connect, wantWrite := false, wantRead := false }
      maybeStartTlsClient { s with connected := true }
  | .tlsEstablished => some (threadConnectComplete writes s)
  | _ => some s

/-- `ProxyConnection::failure`. -/
def failure (writes : List WriteRes) (failType : FailType) (s : Session blocklen) : Session blocklen :=
  if failType = .sslPeerFailedVerify then sslPeerFailedVerify writes s else s

/-- The end of a ready function of the client half. -/
def clientNext (writes : List WriteRes) (s : Session blocklen) : Next → Option (Session blocklen)
  | .done => some s
  | .call .connectComplete => connectComplete writes s
  | .call _ => some s
  | .fail failType => some ((failure writes failType s).close .client)

/-! ## Steps -/

inductive Act
  /-- The loop comes to the client half, before it is established. -/
  | connectReady (writeReady : Bool) (option : ℤ)
  | tlsConnectReady (result : SslResult) (writes : List WriteRes)
  /-- The loop comes to the server half, before it is established. -/
  | tlsAcceptReady (result : SslResult)
  | serverName (host : List UInt8)
  /-- A visit to an established half, or a round of the loop it is in. -/
  | data (a : Tlsproxy.Act)

/-- The half whose pointer an act goes through, other than the one that is visited: `proxyWrite` does for
its half, `proxyShutdown` for the other one, and `maybeStartTlsClient` for the client half. -/
def Act.touches (s : Session blocklen) : Act → Option Half
  | .serverName _ => if s.connected then some .client else none
  | .data (.readReady r) => some r
  | .data (.writeReady w) => some w
  | .data (.tlsRead res) =>
      match s.proxy.pc, res with
      | .reading r, .error => some r.other
      | .reading r, .read bs => if bs = [] then none else some r.other
      | _, _ => none
  | .data (.tlsWrite .error) =>
      match s.proxy.pc with
      | .writing w _ => if (s.proxy.desc w).writeAvail = 0 then none else some w.other
      | _ => none
  | _ => none

/-- The TLS library is at work for the server half. -/
def serverBusy (s : Session blocklen) : Bool :=
  match s.proxy.pc with
  | .idle => (s.fd .server).state = .tlsAccept
  | .reading r => r = .server
  | .writing w _ => w = .server

variable (check : Genf.X509 → List UInt8 → Bool)

/-- The loop skips closed descriptors. -/
def visited (h : Half) (state : State) (s : Session blocklen) : Bool :=
  s.proxy.pc = .idle && !(s.proxy.desc h).closed && decide ((s.fd h).state = state)

def step (s : Session blocklen) (a : Act) : Option (Session blocklen) :=
  match a with
  | .connectReady writeReady option =>
      if visited .client .connect s then
        let r := connConnectReady false writeReady option (s.fd .client)
        let s := if writeReady then s.note (.connected option) else s
        clientNext [] (s.setFd .client r.1) r.2
      else none
  | .tlsConnectReady result writes =>
      if visited .client .tlsConnect s then
        (connTlsConnectReady check true result (s.fd .client)).bind fun r =>
          clientNext writes ((s.note (.sslConnect result)).setFd .client r.1) r.2
      else none
  | .tlsAcceptReady result =>
      if visited .server .tlsAccept s then
        let r := connTlsAcceptReady result (s.fd .server)
        let s := s.note (.sslAccept result)
        match r.2 with
        | .call .notifyAccept =>
            let s := s.setFd .server { r.1 with tlsWantRead := true }
            some { s with proxy := { s.proxy with pc := .reading .server } }
        | _ => some (s.setFd .server r.1)
      else none
  | .serverName host =>
      if serverBusy s && !(s.proxy.desc .server).closed then
        maybeStartTlsClient
          { s.note (.serverName host) with haveHostname := true, hostname := host }
      else none
  | .data (.established _) => none
  | .data a =>
      if (Act.touches s (.data a)).all s.selectFd then
        (Tlsproxy.step s.proxy a).map fun p => s.setProxy p
      else none

/-- What `connectionFactory` and `listenReady` leave. -/
def start : Session blocklen where
  proxy := Tlsproxy.start
  fd
    | .client => ⟨.connect, false, true, false, false, false, none, none⟩
    | .server => startTlsServer ⟨.tlsAccept, false, false, false, false, false, none, none⟩
  selectFd := fun _ => true
  connected := false
  haveHostname := false
  hostname := []
  log := []

def system (blocklen : ℕ) : System (Session blocklen) Act := ⟨start, step check⟩

end Session

end Netp.Tlsproxy.Setup
