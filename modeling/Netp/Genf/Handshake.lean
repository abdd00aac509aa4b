import Netp.Genf.Lifecycle
import Netp.Genf.WriteBuffer

/-! # The handshake of a packet connection

`Lifecycle` has the handshake of any connection with its callbacks, `WriteBuffer` that of a
`PacketConnection` with its output. A packet connection's callbacks do nothing in the handshake, except that
`notifyAccept` turns the reading on; with these callbacks the one goes where the other does
(`handshake_writeBuffer`).
-/

namespace Netp.Genf.Life
open Netp.Lib
set_option autoImplicit false

/-! ## The two descriptors -/

/-- A connection that is looked up has yet to connect. -/
def State.out : State → Out.FdState
  | .lookup => .connect
  | .connect => .connect
  | .tlsAccept => .tlsAccept
  | .tlsConnect => .tlsConnect
  | .tlsEstablished => .tlsEstablished
  | .established => .established

def Start.out : Start → Out.Start
  | .initiate _ tls _ => .initiate tls
  | .accept tls _ => .accept tls

/-- The flags of the connection as far as both models have them. -/
structure Agrees (how : Start) (c : Conn) (o : Out.PacketConn) : Prop where
  state : o.fd.state = c.fd.state.out
  wantRead : o.fd.wantRead = c.fd.wantRead
  wantWrite : o.fd.wantWrite = (c.fd.wantWrite || c.fd.state = .lookup)
  tlsWantRead : o.fd.tlsWantRead = c.fd.tlsWantRead
  tlsWantWrite : o.fd.tlsWantWrite = c.tlsWantWrite
  tlsEstablished : o.fd.tlsEstablished = c.fd.tlsEstablished
  closed : o.fd.closed = c.closed
  selectFd : c.selectFd = !c.closed
  tlsConnect : o.tlsConnect = how.tls
  pending : c.pending = true → c.fd.state = .lookup

/-- What the callbacks of a visit do in the handshake of a packet connection. -/
def packetBody (c : Conn) (v : Visit) : List Use :=
  match c.fd.state, v.ssl with
  | .tlsAccept, .success _ _ => [.wantReadSet true]
  | _, _ => []

/-- The acts of the handshake: a packet connection's own callbacks, and what others do with it. -/
def Handshaking (c : Conn) : Act → Prop
  | .visit v => c.fd.state ≠ .established ∧ c.fd.state ≠ .tlsEstablished ∧ v.body = packetBody c v
  | .lookedUp _ body => body = []
  | .use (.wantReadSet _) => True
  | .use .close => True
  | .use _ => False

/-! ## Steps -/

section Steps
variable {check : X509 → List UInt8 → Bool} {how : Start} {C : ℕ} {c c' : Conn} {o : Out.PacketConn}

/-- What `Out` is told of the result of a handshake call. -/
def SslResult.out (verified : Bool) : SslResult → Out.Handshake
  | .success _ _ => .success verified
  | .wantRead => .wantRead
  | .wantWrite => .wantWrite
  | .error => .error

/-- What the end of a ready function does, with callbacks that do nothing. -/
def Next.out : Next → Out.PacketConn → Out.PacketConn
  | .fail _, o => Out.close o
  | _, o => o

theorem Agrees.settled (h : Agrees how c o) (hc : c.fd.state ≠ .lookup) {P : Prop} (hp : c.pending = true) : P :=
  absurd (h.pending hp) hc

theorem Agrees.note (h : Agrees how c o) (e : Event) : Agrees how (c.note e) o := { h with }

theorem close_agrees (h : Agrees how c o) : Agrees how c.close (Out.close o) := by
  have hopen := h.selectFd
  unfold Conn.close
  split
  · exact { h with closed := rfl, selectFd := rfl }
  · rename_i hsel
    rw [Bool.not_eq_true] at hsel
    rw [hsel, eq_comm, Bool.not_eq_false'] at hopen
    exact { h with closed := hopen.symm }

theorem wantReadSet_agrees {v : Bool} (h : Agrees how c o) (hs : c.use (.wantReadSet v) = some c') :
    Agrees how c' { o with fd := o.fd.wantReadSet v } := by
  have htls := h.tlsEstablished
  simp only [Conn.use] at hs
  split at hs
  · split at hs <;> rename_i hest <;> cases hs
    · rw [Out.SelectFd.wantReadSet, if_neg (by simp [htls, hest])]
      exact { h with tlsWantRead := rfl }
    · rw [Out.SelectFd.wantReadSet, if_pos (by simp [htls, hest])]
      exact { h with wantRead := rfl }
  · cases hs

theorem next_agrees {r : Next} (hs : c.next [] r = some c') (h : Agrees how c o) : Agrees how c' (r.out o) := by
  cases r with
  | done =>
    cases hs
    exact h
  | call cb =>
    cases hs
    exact h.note (.call cb)
  | fail failType =>
    cases hs
    exact close_agrees (h.note (.call (.failure failType)))

/-! ### The ready functions -/

theorem connConnectReady_agrees (h : Agrees how c o) (hc : c.fd.state = .connect) (option : ℤ)
    (hs : { c with fd := (connConnectReady how.tls true option c.fd).1 }.next []
      (connConnectReady how.tls true option c.fd).2 = some c') :
    Agrees how c' (Out.connConnectReady (option = 0) o) := by
  have htls := h.tlsConnect
  have hne : c.fd.state ≠ .lookup := by rw [hc]; nofun
  unfold connConnectReady at hs
  unfold Out.connConnectReady
  by_cases hzero : option = 0
  · simp only [hzero, decide_true, if_true] at hs ⊢
    by_cases hhow : how.tls = true
    · rw [if_pos (htls.trans hhow)]
      simp only [hhow, if_true] at hs
      refine next_agrees (o := { o with fd := _ }) hs ?_
      exact { h with state := rfl, wantRead := rfl, wantWrite := rfl, pending := h.settled hne }
    · rw [if_neg (by rw [htls]; exact hhow)]
      simp only [hhow] at hs
      refine next_agrees (o := { o with fd := _ }) hs ?_
      exact { h with state := rfl, wantRead := rfl, wantWrite := rfl, pending := h.settled hne }
  · simp only [hzero, decide_false, Bool.false_eq_true, if_false, if_true] at hs ⊢
    refine next_agrees (o := { o with fd := _ }) hs ?_
    exact { h with wantWrite := by simp [hc] }

theorem prepNextRound_agrees (h : Agrees how c o) (hc : c.fd.state ≠ .lookup) (result : SslResult)
    (verified : Bool) : Agrees how { c with fd := (prepNextRound result c.fd).1 }
      { o with fd := Out.prepNextRound o.fd (result.out verified) } := by
  cases result <;>
    exact { h with
      wantRead := rfl
      wantWrite := by simp [prepNextRound, Out.prepNextRound, SslResult.out, hc] }

theorem connTlsAcceptReady_agrees (h : Agrees how c o) (hc : c.fd.state = .tlsAccept) (result : SslResult)
    {body : List Use} (hbody : body = match result with | .success _ _ => [.wantReadSet true] | _ => [])
    (hs : { c with fd := (connTlsAcceptReady result c.fd).1 }.next body
      (connTlsAcceptReady result c.fd).2 = some c') :
    Agrees how c' (Out.connTlsAcceptReady (result.out true) o) := by
  have hwait : o.fd.wantWrite = c.fd.wantWrite := by simpa [hc] using h.wantWrite
  have hne : c.fd.state ≠ .lookup := by rw [hc]; nofun
  have hretry := prepNextRound_agrees h hne result true
  subst hbody
  cases result with
  | success verifyResult peer =>
    obtain ⟨c₁, hread, hdone⟩ := Option.bind_eq_some_iff.1 hs
    cases hdone
    refine wantReadSet_agrees (o := { o with fd := _ }) ?_ hread
    exact { h with
      state := rfl
      wantWrite := by simpa [Conn.note, connTlsAcceptReady] using hwait
      tlsEstablished := rfl
      pending := h.settled hne }
  | wantRead => exact next_agrees hs hretry
  | wantWrite => exact next_agrees hs hretry
  | error => exact next_agrees hs hretry

theorem connTlsConnectReady_agrees (h : Agrees how c o) (hc : c.fd.state = .tlsConnect) (result : SslResult)
    {r : Fd × Next} (hr : connTlsConnectReady check how.checkHost result c.fd = some r)
    (hs : { c with fd := r.1 }.next [] r.2 = some c') :
    ∃ verified, Agrees how c' (Out.connTlsConnectReady (result.out verified) o) := by
  have hwait : o.fd.wantWrite = c.fd.wantWrite := by simpa [hc] using h.wantWrite
  have hne : c.fd.state ≠ .lookup := by rw [hc]; nofun
  have hretry := prepNextRound_agrees h hne result true
  have hfail : ∀ t, r = ({ c.fd with sslVerifyError := true }, .fail t) → Agrees how c' (Out.close o) := by
    rintro t rfl
    exact next_agrees hs { h with }
  cases result with
  | success verifyResult peer =>
    simp only [connTlsConnectReady] at hr
    split at hr
    · exact ⟨false, hfail _ (Option.some.inj hr).symm⟩
    · obtain ⟨matched, -, hr⟩ := Option.map_eq_some_iff.1 hr
      cases matched with
      | false => exact ⟨false, hfail _ hr.symm⟩
      | true =>
        subst hr
        refine ⟨true, next_agrees (o := { o with fd := _ }) hs ?_⟩
        exact { h with
          state := rfl
          wantWrite := by simpa using hwait
          tlsWantRead := rfl
          tlsEstablished := rfl
          pending := h.settled hne }
  | wantRead =>
    cases hr
    exact ⟨true, next_agrees hs hretry⟩
  | wantWrite =>
    cases hr
    exact ⟨true, next_agrees hs hretry⟩
  | error =>
    cases hr
    exact ⟨true, next_agrees hs hretry⟩

/-! ### Steps and runs -/

/-- A visit before the connection is established. -/
theorem visit_agrees (h : Agrees how c o) {v : Visit} (hok : Handshaking c (.visit v))
    (hs : selectFdReady check how v c = some c') :
    Agrees how c' o ∨ ∃ a, Out.enabled o a ∧ Agrees how c' (Out.effect C o a) := by
  obtain ⟨hest, htls, hbody⟩ := hok
  have hstate := h.state
  unfold packetBody at hbody
  unfold selectFdReady at hs
  cases hc : c.fd.state <;> simp only [hc] at hs hbody hstate
  case lookup =>
    cases hs
    exact .inl h
  case connect =>
    rw [hbody] at hs
    cases hw : v.writeReady with
    | false =>
      rw [hw] at hs
      exact .inl (next_agrees hs { h with })
    | true =>
      rw [hw] at hs
      exact .inr ⟨.connectReady (v.option = 0), hstate,
        connConnectReady_agrees (h.note _) hc v.option hs⟩
  case tlsAccept =>
    exact .inr ⟨.tlsAcceptReady (v.ssl.out true), hstate,
      connTlsAcceptReady_agrees (h.note _) hc v.ssl (by rw [hbody]; cases v.ssl <;> rfl) hs⟩
  case tlsConnect =>
    obtain ⟨r, hr, hs⟩ := Option.bind_eq_some_iff.1 hs
    rw [hbody] at hs
    obtain ⟨verified, hagrees⟩ := connTlsConnectReady_agrees (h.note (.sslConnect v.ssl)) hc v.ssl hr hs
    exact .inr ⟨.tlsConnectReady (v.ssl.out verified), hstate, hagrees⟩
  case established => exact absurd hc hest
  case tlsEstablished => exact absurd hc htls

/-- A step of one model is one of the other, or leaves the flags as they are. -/
theorem step_agrees (h : Agrees how c o) {a : Act} (hok : Handshaking c a)
    (hs : step check how c a = some c') :
    Agrees how c' o ∨ ∃ a' o', Out.step C o a' = some o' ∧ Agrees how c' o' := by
  have hopen : ∀ a', c.closed = false → Out.enabled o a' → Out.step C o a' = some (Out.effect C o a') :=
    fun a' hc he => if_pos ⟨h.closed.trans hc, he⟩
  cases a with
  | visit v =>
    simp only [step] at hs
    split at hs
    · rename_i hlisted
      rw [Bool.and_eq_true, Bool.not_eq_true'] at hlisted
      refine (visit_agrees (C := C) (h.note .visit) hok hs).imp_right ?_
      rintro ⟨a', he, hagrees⟩
      exact ⟨a', _, hopen a' hlisted.2 he, hagrees⟩
    · cases hs
  | lookedUp found body =>
    obtain rfl : body = [] := hok
    simp only [step] at hs
    split at hs
    · rename_i hp
      have hlookup := h.pending hp
      unfold lookupCallbackHost at hs
      split at hs <;> cases hs
      · exact .inl { h with
          state := by simpa [hlookup, Conn.note, State.out] using h.state
          wantWrite := by simpa [hlookup] using h.wantWrite
          pending := nofun }
      · exact .inl { h with pending := nofun }
    · cases hs
  | use u =>
    cases u with
    | wantReadSet v =>
      have hsel : c.selectFd = true := by
        by_contra hno
        simp [step, Conn.use, hno] at hs
      have hclosed : c.closed = false := by
        have := h.selectFd
        rw [hsel, eq_comm, Bool.not_eq_true'] at this
        exact this
      exact .inr ⟨.wantReadSet v, _, hopen _ hclosed trivial, wantReadSet_agrees h hs⟩
    | close =>
      cases hs
      cases hclosed : c.closed with
      | false => exact .inr ⟨.close, _, hopen _ hclosed trivial, close_agrees h⟩
      | true =>
        left
        have hsel := h.selectFd
        rw [hclosed] at hsel
        rw [Conn.close, if_neg (by rw [hsel]; nofun)]
        exact h
    | wantWriteSet v => exact absurd hok id
    | mark => exact absurd hok id

theorem start_agrees {body : List Use} (hbody : body = [.wantReadSet true])
    (hs : start how body = some c) : Agrees how c (Out.start how.out) := by
  subst hbody
  rcases how with ⟨_ | host, tls, checkHost⟩ | ⟨_ | _, checkHost⟩ <;> cases hs <;>
    exact ⟨rfl, rfl, rfl, rfl, rfl, rfl, rfl, rfl, rfl, by simp [Conn.note, startTlsServer]⟩

/-- In the handshake of a packet connection the model of its output is always where the model of its
callbacks is. -/
theorem handshake_writeBuffer (C : ℕ) {body : List Use} (hbody : body = [.wantReadSet true]) {c₀ : Conn}
    (hstart : start how body = some c₀) (hc : ReachIf (system check how c₀) Handshaking c) :
    ∃ o, Reach (Out.system C how.out) o ∧ Agrees how c o := by
  refine ReachIf.invariant (I := fun c => ∃ o, Reach (Out.system C how.out) o ∧ Agrees how c o)
    ⟨_, .init, start_agrees hbody hstart⟩ ?_ hc
  rintro c a c' ⟨o, ho, hagrees⟩ hok hs
  obtain hsame | ⟨a', o', hstep, hnext⟩ := step_agrees (C := C) hagrees hok hs
  · exact ⟨o, ho, hsame⟩
  · exact ⟨o', .next ho trivial hstep, hnext⟩

end Steps

end Netp.Genf.Life
