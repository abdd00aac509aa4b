import Netp.Genf.Lifecycle

/-! # The callbacks of a connection

`Allowed`: which callbacks there may be after a history, over all that the peer, the resolver, the TLS
library and the `Use`s of the callbacks do (`callbacks_ordered`). A connection is opened once, by the last step of its
handshake; data is passed on after that, and only until the connection is closed; the handshake of a TLS
client ends in `connectComplete` for a verified peer with the right name only.
-/

namespace Netp.Genf.Life
open Netp.Lib
set_option autoImplicit false

/-! ## The order -/

def Opened (pre : List Event) : Prop :=
  .call .connectComplete ∈ pre ∨ .call .notifyAccept ∈ pre

def Over (pre : List Event) : Prop := .close ∈ pre ∨ .mark ∈ pre

/-- The last visit, and whether it found the connection closed. -/
def Visiting (pre : List Event) : Prop :=
  ∃ before during, pre = before ++ .visit :: during ∧ .visit ∉ during ∧ ¬ Over before

section Allowed
variable (check : X509 → List UInt8 → Bool) (how : Start)

/-- The certificate of the peer is for the host. -/
def Start.Named (peer : Option X509) : Prop :=
  ∃ cert name, peer = some cert ∧ how.host = some name ∧ check cert name = true

/-- What comes right before a callback of the handshake. -/
def Reported (last : Option Event) : Callback → Prop
  | .connectComplete =>
      if how.tls then
        ∃ peer, last = some (.sslConnect (.success X509_V_OK peer)) ∧
          (how.checkHost → how.Named check peer)
      else last = some (.connected 0)
  | .notifyAccept =>
      if how.tls then ∃ verifyResult peer, last = some (.sslAccept (.success verifyResult peer))
      else last = none
  | .failure .asyncConnectFailed => ∃ option, option ≠ 0 ∧ last = some (.connected option)
  | .failure .sslPeerFailedVerify => how.tls ∧
      ∃ verifyResult peer, verifyResult ≠ X509_V_OK ∧
        last = some (.sslConnect (.success verifyResult peer))
  | .failure .sslPeerCnHostMismatch => how.tls ∧ how.checkHost ∧
      ∃ peer, last = some (.sslConnect (.success X509_V_OK peer)) ∧ ¬ how.Named check peer
  | .failure .sslAcceptError => how.tls ∧ last = some (.sslAccept .error)
  | .failure .lookupFailure => how.host.isSome ∧ last = some (.lookedUp false)
  | _ => False

/-- The side of the connection that a callback of the handshake is for. -/
def Start.Side : Callback → Prop
  | .notifyAccept | .failure .sslAcceptError => ∃ tls checkHost, how = .accept tls checkHost
  | _ => ∃ host tls checkHost, how = .initiate host tls checkHost

def Allowed (pre : List Event) : Event → Prop
  | .call .readReady => Opened pre ∧ ¬ Over pre
  | .call .writeReady => Opened pre ∧ Visiting pre
  | .call (.failure .lookupFailure) =>
      ¬ Opened pre ∧ (∀ cb, .call cb ∉ pre) ∧ how.Side (.failure .lookupFailure) ∧
        Reported check how pre.getLast? (.failure .lookupFailure)
  | .call cb => ¬ Opened pre ∧ ¬ Over pre ∧ how.Side cb ∧ Reported check how pre.getLast? cb
  | _ => True

end Allowed

/-! ## What a callback leaves -/

/-- The history goes on, with nothing but `close` and `mark`, and agrees with the flags as before. -/
structure Used (c c' : Conn) : Prop where
  log : ∃ ext, c'.log = c.log ++ ext ∧ ∀ e ∈ ext, e = .close ∨ e = .mark
  state : c'.fd.state = c.fd.state
  remoteHost : c'.fd.remoteHost = c.fd.remoteHost
  pending : c'.pending = c.pending
  listed : c'.listed = c.listed
  closed : c.closed = true → c'.closed = true
  shut : (c.closed = true ↔ Over c.log) → (c'.closed = true ↔ Over c'.log)
  null : (c.selectFd = false → c.closed = true) → c'.selectFd = false → c'.closed = true

theorem Used.refl (c : Conn) : Used c c where
  log := ⟨[], (List.append_nil _).symm, fun _ he => absurd he List.not_mem_nil⟩
  state := rfl
  remoteHost := rfl
  pending := rfl
  listed := rfl
  closed := id
  shut := id
  null := id

theorem Used.trans {c c' c'' : Conn} (h : Used c c') (h' : Used c' c'') : Used c c'' where
  log := by
    obtain ⟨ext, hlog, hext⟩ := h.log
    obtain ⟨ext', hlog', hext'⟩ := h'.log
    refine ⟨ext ++ ext', by rw [hlog', hlog, List.append_assoc], ?_⟩
    intro e he
    exact (List.mem_append.1 he).elim (hext e) (hext' e)
  state := h'.state.trans h.state
  remoteHost := h'.remoteHost.trans h.remoteHost
  pending := h'.pending.trans h.pending
  listed := h'.listed.trans h.listed
  closed hc := h'.closed (h.closed hc)
  shut hc := h'.shut (h.shut hc)
  null hc := h'.null (h.null hc)

theorem over_concat {log : List Event} {e : Event} :
    Over (log ++ [e]) ↔ Over log ∨ e = .close ∨ e = .mark := by
  simp only [Over, List.mem_append, List.mem_singleton, eq_comm (a := e)]
  tauto

theorem used_close (c : Conn) : Used c c.close := by
  unfold Conn.close
  split
  · refine ⟨⟨[.close], rfl, ?_⟩, rfl, rfl, rfl, rfl, fun _ => rfl, ?_, fun _ _ => rfl⟩
    · intro e he
      exact .inl (List.mem_singleton.1 he)
    · intro _
      simp [over_concat]
  · exact .refl c

theorem close_closed {c : Conn} (hnull : c.selectFd = false → c.closed = true) :
    c.close.closed = true := by
  unfold Conn.close
  split
  · rfl
  · rename_i hsel
    exact hnull (Bool.eq_false_iff.2 hsel)

theorem used_use {u : Use} {c c' : Conn} (h : c.use u = some c') : Used c c' := by
  cases u with
  | close =>
    cases h
    exact used_close c
  | wantReadSet v =>
    simp only [Conn.use] at h
    split at h
    · split at h <;>
      · cases h
        exact ⟨(Used.refl c).log, rfl, rfl, rfl, rfl, id, id, id⟩
    · cases h
  | wantWriteSet v =>
    simp only [Conn.use] at h
    split at h
    · split at h <;>
      · cases h
        exact ⟨(Used.refl c).log, rfl, rfl, rfl, rfl, id, id, id⟩
    · cases h
  | mark =>
    simp only [Conn.use] at h
    split at h
    · cases h
      refine ⟨⟨[.mark], rfl, ?_⟩, rfl, rfl, rfl, rfl, fun _ => rfl, ?_, fun _ _ => rfl⟩
      · intro e he
        exact .inr (List.mem_singleton.1 he)
      · intro _
        simp [over_concat]
    · cases h

theorem used_uses {body : List Use} {c c' : Conn} (h : c.uses body = some c') : Used c c' := by
  induction body generalizing c with
  | nil =>
    cases h
    exact .refl _
  | cons u body ih =>
    rw [Conn.uses, List.foldlM_cons] at h
    obtain ⟨c₁, hu, hbody⟩ := Option.bind_eq_some_iff.1 h
    exact (used_use hu).trans (ih hbody)

theorem Visiting.used {c c' : Conn} (h : Visiting c.log) (hu : Used c c') : Visiting c'.log := by
  obtain ⟨before, during, hlog, hlast, hover⟩ := h
  obtain ⟨ext, hlog', hext⟩ := hu.log
  refine ⟨before, during ++ ext, by rw [hlog', hlog, List.append_assoc, List.cons_append], ?_, hover⟩
  intro hmem
  rcases List.mem_append.1 hmem with hin | hin
  · exact hlast hin
  · rcases hext _ hin with heq | heq <;> cases heq

/-! ## The invariant -/

section Inv
variable (check : X509 → List UInt8 → Bool) (how : Start)

def State.Established (s : State) : Prop := s = .tlsEstablished ∨ s = .established

/-- The state fits how the connection came about. -/
structure Fits (fd : Fd) : Prop where
  initiated : fd.state = .lookup ∨ fd.state = .connect ∨ fd.state = .tlsConnect →
    ∃ host tls checkHost, how = .initiate host tls checkHost
  accepted : fd.state = .tlsAccept → ∃ tls checkHost, how = .accept tls checkHost
  tls : fd.state = .tlsConnect ∨ fd.state = .tlsAccept → how.tls = true
  remoteHost : fd.remoteHost = how.host

structure Inv (c : Conn) : Prop where
  each : Each (Allowed check how) c.log
  shut : c.closed = true ↔ Over c.log
  null : c.selectFd = false → c.closed = true
  opened : Opened c.log ↔ c.fd.state.Established
  fits : Fits how c.fd
  pending : c.pending = true → c.fd.state = .lookup ∧ how.host.isSome ∧ ∀ cb, .call cb ∉ c.log
  lookup : c.fd.state = .lookup → c.listed = false

/-- After a failure in the handshake of a client the connection is closed. -/
def Ended (c : Conn) : Prop := ∀ t, .call (.failure t) ∈ c.log →
  t = .lookupFailure ∨ t = .sslAcceptError ∨ c.closed = true

variable {check how}

theorem opened_append {log ext : List Event} (hext : ∀ e ∈ ext, ∀ cb, e ≠ .call cb) :
    Opened (log ++ ext) ↔ Opened log := by
  have hnone : ∀ cb, .call cb ∉ ext := fun cb hin => hext _ hin cb rfl
  simp [Opened, hnone]

theorem Inv.used {c c' : Conn} (h : Inv check how c) (hu : Used c c') : Inv check how c' := by
  obtain ⟨ext, hlog, hext⟩ := hu.log
  have hcalls : ∀ e ∈ ext, ∀ cb, e ≠ .call cb := by
    rintro e he cb rfl
    rcases hext _ he with heq | heq <;> cases heq
  constructor
  · rw [hlog]
    refine h.each.append fun e he pre => ?_
    rcases hext e he with rfl | rfl <;> trivial
  · exact hu.shut h.shut
  · exact hu.null h.null
  · rw [hlog, opened_append hcalls, h.opened, hu.state]
  · exact ⟨fun hs => h.fits.initiated (hu.state ▸ hs), fun hs => h.fits.accepted (hu.state ▸ hs),
      fun hs => h.fits.tls (hu.state ▸ hs), hu.remoteHost.trans h.fits.remoteHost⟩
  · intro hp
    obtain ⟨hstate, hhost, hnone⟩ := h.pending (hu.pending ▸ hp)
    refine ⟨hu.state.trans hstate, hhost, fun cb hin => ?_⟩
    rw [hlog] at hin
    exact (List.mem_append.1 hin).elim (hnone cb) fun hin => hcalls _ hin cb rfl
  · intro hs
    rw [hu.listed]
    exact h.lookup (hu.state ▸ hs)

theorem Ended.used {c c' : Conn} (h : Ended c) (hu : Used c c') : Ended c' := by
  obtain ⟨ext, hlog, hext⟩ := hu.log
  intro t ht
  rw [hlog] at ht
  rcases List.mem_append.1 ht with hin | hin
  · exact (h t hin).imp_right (Or.imp_right hu.closed)
  · rcases hext _ hin with heq | heq <;> cases heq

/-! ## The handshakes -/

/-- An event that is neither a callback nor the end. -/
def Event.Quiet (e : Event) : Prop := (∀ cb, e ≠ .call cb) ∧ e ≠ .close ∧ e ≠ .mark

theorem Inv.note {c : Conn} {e : Event} (h : Inv check how c) (he : e.Quiet) :
    Inv check how (c.note e) := by
  have hallowed : ∀ pre, Allowed check how pre e := by
    intro pre
    cases e with
    | call cb => exact absurd rfl (he.1 cb)
    | _ => trivial
  have hover : Over (c.log ++ [e]) ↔ Over c.log := by
    rw [over_concat]
    exact or_iff_left fun heq => heq.elim he.2.1 he.2.2
  have hopened : Opened (c.log ++ [e]) ↔ Opened c.log := by
    apply opened_append
    intro e' he' cb heq
    rw [List.mem_singleton.1 he'] at heq
    exact he.1 cb heq
  refine ⟨each_concat.2 ⟨h.each, hallowed _⟩, h.shut.trans hover.symm, h.null, hopened.trans h.opened,
    h.fits, ?_, h.lookup⟩
  intro hp
  obtain ⟨hstate, hhost, hnone⟩ := h.pending hp
  refine ⟨hstate, hhost, fun cb hin => ?_⟩
  rcases List.mem_append.1 hin with hin | hin
  · exact hnone cb hin
  · exact he.1 cb (List.mem_singleton.1 hin).symm

theorem Ended.note {c : Conn} {e : Event} (h : Ended c) (he : e.Quiet) : Ended (c.note e) := by
  intro t ht
  rcases List.mem_append.1 ht with hin | hin
  · exact h t hin
  · exact absurd (List.mem_singleton.1 hin).symm (he.1 _)

theorem opened_call {log : List Event} {cb : Callback} :
    Opened (log ++ [.call cb]) ↔ Opened log ∨ cb = .connectComplete ∨ cb = .notifyAccept := by
  simp only [Opened, List.mem_append, List.mem_singleton, Event.call.injEq, eq_comm (b := cb)]
  tauto

theorem over_call {log : List Event} {cb : Callback} : Over (log ++ [.call cb]) ↔ Over log := by
  simp [over_concat]

/-- A callback that is allowed. -/
theorem inv_call {c : Conn} {fd : Fd} {cb : Callback} (h : Inv check how c) (hfits : Fits how fd)
    (hallowed : Allowed check how c.log (.call cb)) (hp : c.pending = false)
    (hopened : Opened c.log ∨ cb = .connectComplete ∨ cb = .notifyAccept ↔ fd.state.Established)
    (hlookup : fd.state = .lookup → c.listed = false) :
    Inv check how (Conn.note (.call cb) { c with fd := fd }) where
  each := each_concat.2 ⟨h.each, hallowed⟩
  shut := h.shut.trans over_call.symm
  null := h.null
  opened := opened_call.trans hopened
  fits := hfits
  pending hpend := by
    rw [show c.pending = true from hpend] at hp
    cases hp
  lookup := hlookup

/-- What a ready function of the handshake may end with after a history. -/
def Good (check : X509 → List UInt8 → Bool) (how : Start) (pre : List Event) (fd : Fd) : Next → Prop
  | .done => ¬ fd.state.Established
  | .call cb => Allowed check how pre (.call cb) ∧
      (cb = .connectComplete ∨ cb = .notifyAccept ↔ fd.state.Established) ∧
      ∀ t, cb = .failure t → t = .sslAcceptError
  | .fail t => Allowed check how pre (.call (.failure t)) ∧ ¬ fd.state.Established

theorem next_inv {c c' : Conn} {fd : Fd} {r : Next} {body : List Use} (h : Inv check how c)
    (he : Ended c) (hnew : ¬ Opened c.log) (hfits : Fits how fd) (hstate : fd.state ≠ .lookup)
    (hp : c.pending = false) (hgood : Good check how c.log fd r)
    (hnext : Conn.next body { c with fd := fd } r = some c') : Inv check how c' ∧ Ended c' := by
  cases r with
  | done =>
    cases hnext
    refine ⟨⟨h.each, h.shut, h.null, ?_, hfits, ?_, ?_⟩, he⟩
    · exact iff_of_false hnew hgood
    · intro hpend
      rw [show c.pending = true from hpend] at hp
      cases hp
    · exact fun hs => absurd hs hstate
  | call cb =>
    obtain ⟨hallowed, hopens, hfail⟩ := hgood
    have hcall := inv_call h hfits hallowed hp (by rwa [or_iff_right hnew]) fun hs => absurd hs hstate
    refine ⟨hcall.used (used_uses hnext), Ended.used ?_ (used_uses hnext)⟩
    intro t ht
    rcases List.mem_append.1 ht with hin | hin
    · exact he t hin
    · cases List.mem_singleton.1 hin
      exact .inr (.inl (hfail t rfl))
  | fail t =>
    obtain ⟨hallowed, hest⟩ := hgood
    obtain ⟨c₁, hcalled, rfl⟩ := Option.map_eq_some_iff.1 hnext
    have hcall := inv_call h hfits hallowed hp
      (iff_of_false (fun hor => hor.elim hnew (by simp)) hest) fun hs => absurd hs hstate
    have hbefore := hcall.used (used_uses hcalled)
    refine ⟨hbefore.used (used_close c₁), fun t' _ => .inr (.inr ?_)⟩
    exact close_closed hbefore.null

section Handshake
variable {pre : List Event} {fd : Fd}

variable (check how pre) in
theorem good_connect (writeReady : Bool) (option : ℤ) (hfits : Fits how fd)
    (hstate : fd.state = .connect) (hnew : ¬ Opened pre) (hover : ¬ Over pre)
    (hlast : writeReady = true → pre.getLast? = some (.connected option)) :
    Good check how pre (connConnectReady how.tls writeReady option fd).1
        (connConnectReady how.tls writeReady option fd).2 ∧
      Fits how (connConnectReady how.tls writeReady option fd).1 ∧
      (connConnectReady how.tls writeReady option fd).1.state ≠ .lookup := by
  have hside := hfits.initiated (.inr (.inl hstate))
  unfold connConnectReady
  split
  · rename_i hw
    split
    · rename_i hzero
      rw [hzero] at hlast
      split
      · rename_i htls
        refine ⟨by simp [Good, State.Established], ⟨fun _ => hside, nofun, fun _ => htls, ?_⟩, nofun⟩
        simp [startTlsClient, hfits.remoteHost]
      · rename_i htls
        refine ⟨⟨⟨hnew, hover, hside, ?_⟩, by simp [State.Established], nofun⟩,
          ⟨fun _ => hside, nofun, by simp, hfits.remoteHost⟩, nofun⟩
        simp only [Reported, htls]
        exact hlast hw
    · rename_i hne
      refine ⟨⟨⟨hnew, hover, hside, option, hne, hlast hw⟩, by simp [State.Established, hstate]⟩, ?_,
        by simp [hstate]⟩
      exact ⟨hfits.initiated, hfits.accepted, hfits.tls, hfits.remoteHost⟩
  · exact ⟨by simp [Good, State.Established, hstate], hfits, by simp [hstate]⟩

/-- Another round of a handshake. -/
theorem prepNextRound_spec (result : SslResult) (fd : Fd) :
    (prepNextRound result fd).1.state = fd.state ∧
      (prepNextRound result fd).1.remoteHost = fd.remoteHost := by
  cases result <;> exact ⟨rfl, rfl⟩

theorem Fits.round (hfits : Fits how fd) (result : SslResult) : Fits how (prepNextRound result fd).1 := by
  obtain ⟨hstate, hhost⟩ := prepNextRound_spec result fd
  constructor
  · rw [hstate]
    exact hfits.initiated
  · rw [hstate]
    exact hfits.accepted
  · rw [hstate]
    exact hfits.tls
  · exact hhost.trans hfits.remoteHost

variable (check how pre) in
theorem good_accept (result : SslResult) (hfits : Fits how fd) (hstate : fd.state = .tlsAccept)
    (hnew : ¬ Opened pre) (hover : ¬ Over pre) (hlast : pre.getLast? = some (.sslAccept result)) :
    Good check how pre (connTlsAcceptReady result fd).1 (connTlsAcceptReady result fd).2 ∧
      Fits how (connTlsAcceptReady result fd).1 ∧
      (connTlsAcceptReady result fd).1.state ≠ .lookup := by
  have hside := hfits.accepted hstate
  have htls := hfits.tls (.inr hstate)
  have hround := (prepNextRound_spec result fd).1.trans hstate
  cases result with
  | success verifyResult peer =>
    refine ⟨⟨⟨hnew, hover, hside, ?_⟩, by simp [connTlsAcceptReady, State.Established], nofun⟩,
      ⟨by simp [connTlsAcceptReady], by simp [connTlsAcceptReady], fun _ => htls, hfits.remoteHost⟩, nofun⟩
    simp only [Reported, htls]
    exact ⟨verifyResult, peer, hlast⟩
  | wantRead =>
    exact ⟨by simp [Good, connTlsAcceptReady, prepNextRound, State.Established, hstate], hfits.round _,
      by simp [connTlsAcceptReady, prepNextRound, hstate]⟩
  | wantWrite =>
    exact ⟨by simp [Good, connTlsAcceptReady, prepNextRound, State.Established, hstate], hfits.round _,
      by simp [connTlsAcceptReady, prepNextRound, hstate]⟩
  | error =>
    refine ⟨⟨⟨hnew, hover, hside, htls, hlast⟩, ?_, ?_⟩, hfits.round _, ?_⟩
    · simp [connTlsAcceptReady, prepNextRound, State.Established, hstate]
    · rintro t ⟨⟩
      rfl
    · simp [connTlsAcceptReady, prepNextRound, hstate]

/-- What `hostMatch` says is said of the host that the connection was made for. -/
theorem hostMatch_named {peer : Option X509} {matched : Bool} (hfits : Fits how fd)
    (h : hostMatch check peer fd.remoteHost = some matched) :
    matched = true ↔ how.Named check peer := by
  rw [hfits.remoteHost] at h
  cases peer with
  | none =>
    cases h
    simp [Start.Named]
  | some cert =>
    obtain ⟨name, hname, rfl⟩ := Option.map_eq_some_iff.1 h
    simp [Start.Named, hname]

variable (check how pre) in
theorem good_tlsConnect (result : SslResult) {r : Fd × Next} (hfits : Fits how fd)
    (hstate : fd.state = .tlsConnect) (hnew : ¬ Opened pre) (hover : ¬ Over pre)
    (hlast : pre.getLast? = some (.sslConnect result))
    (h : connTlsConnectReady check how.checkHost result fd = some r) :
    Good check how pre r.1 r.2 ∧ Fits how r.1 ∧ r.1.state ≠ .lookup := by
  have hside := hfits.initiated (.inr (.inr hstate))
  have htls := hfits.tls (.inl hstate)
  have hretry : ∀ result, Good check how pre (prepNextRound result fd).1 .done ∧
      Fits how (prepNextRound result fd).1 ∧ (prepNextRound result fd).1.state ≠ .lookup := by
    intro result
    refine ⟨?_, hfits.round result, ?_⟩
    · simp [Good, (prepNextRound_spec result fd).1, State.Established, hstate]
    · simp [(prepNextRound_spec result fd).1, hstate]
  have hsame : ∀ fd' : Fd, fd'.state = fd.state → fd'.remoteHost = fd.remoteHost → Fits how fd' := by
    intro fd' hs hh
    exact ⟨hs ▸ hfits.initiated, hs ▸ hfits.accepted, hs ▸ hfits.tls, hh.trans hfits.remoteHost⟩
  cases result with
  | success verifyResult peer =>
    simp only [connTlsConnectReady] at h
    split at h
    · rename_i hverify
      cases h
      exact ⟨⟨⟨hnew, hover, hside, htls, verifyResult, peer, hverify, hlast⟩,
        by simp [State.Established, hstate]⟩, hsame _ rfl rfl, by simp [hstate]⟩
    · rename_i hverify
      rw [not_not] at hverify
      subst hverify
      obtain ⟨matched, hmatch, rfl⟩ := Option.map_eq_some_iff.1 h
      cases matched with
      | true =>
        refine ⟨⟨⟨hnew, hover, hside, ?_⟩, by simp [State.Established], nofun⟩,
          ⟨fun _ => hside, nofun, fun _ => htls, hfits.remoteHost⟩, nofun⟩
        simp only [Reported, htls]
        refine ⟨peer, hlast, fun hcheck => ?_⟩
        rw [if_pos hcheck] at hmatch
        exact (hostMatch_named hfits hmatch).1 rfl
      | false =>
        have hcheck : how.checkHost = true := by
          by_contra hno
          rw [if_neg hno] at hmatch
          cases hmatch
        rw [if_pos hcheck] at hmatch
        refine ⟨⟨⟨hnew, hover, hside, htls, hcheck, peer, hlast, ?_⟩, by simp [State.Established, hstate]⟩,
          hsame _ rfl rfl, by simp [hstate]⟩
        intro hnamed
        exact absurd ((hostMatch_named hfits hmatch).2 hnamed) Bool.false_ne_true
  | wantRead =>
    cases h
    exact hretry .wantRead
  | wantWrite =>
    cases h
    exact hretry .wantWrite
  | error =>
    cases h
    exact hretry .error

end Handshake

/-! ## Data -/

/-- A callback for data, if it is due. -/
theorem callIf_inv {c c' : Conn} {due : Bool} {cb : Callback} {body : List Use} (h : Inv check how c)
    (he : Ended c) (hdata : cb = .readReady ∨ cb = .writeReady) (hp : c.pending = false)
    (hopen : Opened c.log) (hallowed : Allowed check how c.log (.call cb))
    (hcall : callIf due cb body c = some c') :
    Inv check how c' ∧ Ended c' ∧ c'.pending = false ∧ Opened c'.log ∧
      (Visiting c.log → Visiting c'.log) := by
  unfold callIf at hcall
  split at hcall
  · have hu := used_uses hcall
    have hnoted := inv_call h h.fits hallowed hp
      ⟨fun _ => h.opened.1 hopen, fun _ => .inl hopen⟩ h.lookup
    have hinv := hnoted.used hu
    refine ⟨hinv, Ended.used ?_ hu, hu.pending.trans hp, ?_, fun hv => Visiting.used ?_ hu⟩
    · intro t ht
      rcases List.mem_append.1 ht with hin | hin
      · exact he t hin
      · rcases hdata with rfl | rfl <;> cases List.mem_singleton.1 hin
    · rw [hinv.opened, hu.state]
      exact h.opened.1 hopen
    · obtain ⟨before, during, hlog, hlast, hover⟩ := hv
      refine ⟨before, during ++ [.call cb], ?_, ?_, hover⟩
      · show c.log ++ [.call cb] = _
        rw [hlog, List.append_assoc, List.cons_append]
      · simpa using hlast
  · cases hcall
    exact ⟨h, he, hp, hopen, id⟩

theorem data_inv {c c₁ c' : Conn} {due due' : Bool} {v : Visit} (h : Inv check how c) (he : Ended c)
    (hp : c.pending = false) (hopen : Opened c.log) (hover : ¬ Over c.log) (hvisit : Visiting c.log)
    (hread : callIf due .readReady v.body c = some c₁)
    (hwrite : callIf due' .writeReady v.writeBody c₁ = some c') : Inv check how c' ∧ Ended c' := by
  obtain ⟨h₁, he₁, hp₁, hopen₁, hkeep⟩ := callIf_inv h he (.inl rfl) hp hopen ⟨hopen, hover⟩ hread
  obtain ⟨h', he', -⟩ := callIf_inv h₁ he₁ (.inr rfl) hp₁ hopen₁ ⟨hopen₁, hkeep hvisit⟩ hwrite
  exact ⟨h', he'⟩

/-! ## Steps and runs -/

theorem selectFdReady_inv {c c' : Conn} {v : Visit} (h : Inv check how c) (he : Ended c)
    (hover : ¬ Over c.log) (hvisit : Visiting c.log) (hs : selectFdReady check how v c = some c') :
    Inv check how c' ∧ Ended c' := by
  have hp : c.fd.state ≠ .lookup → c.pending = false := by
    intro hne
    by_contra hpend
    exact hne (h.pending (Bool.eq_true_of_not_eq_false hpend)).1
  have hnew : ¬ c.fd.state.Established → ¬ Opened c.log := fun hest hopen => hest (h.opened.1 hopen)
  unfold selectFdReady at hs
  cases hstate : c.fd.state with
  | lookup =>
    rw [hstate] at hs
    cases hs
    exact ⟨h, he⟩
  | connect =>
    rw [hstate] at hs
    have hquiet : Event.Quiet (.connected v.option) := ⟨nofun, nofun, nofun⟩
    have hn := hnew (by simp [State.Established, hstate])
    have hpend := hp (by simp [hstate])
    cases hw : v.writeReady with
    | true =>
      rw [hw] at hs
      have hinv := h.note hquiet
      obtain ⟨hgood, hfits, hne⟩ := good_connect check how (c.note (.connected v.option)).log true v.option
        h.fits hstate
        (by simpa [Conn.note, Opened] using hn) (by simpa [Conn.note, Over] using hover)
        (fun _ => by simp [Conn.note])
      exact next_inv hinv (he.note hquiet) (by simpa [Conn.note, Opened] using hn) hfits hne hpend hgood hs
    | false =>
      rw [hw] at hs
      obtain ⟨hgood, hfits, hne⟩ := good_connect check how c.log false v.option h.fits hstate hn hover nofun
      exact next_inv h he hn hfits hne hpend hgood hs
  | tlsAccept =>
    rw [hstate] at hs
    have hquiet : Event.Quiet (.sslAccept v.ssl) := ⟨nofun, nofun, nofun⟩
    have hn := hnew (by simp [State.Established, hstate])
    obtain ⟨hgood, hfits, hne⟩ := good_accept check how (c.note (.sslAccept v.ssl)).log v.ssl h.fits hstate
      (by simpa [Conn.note, Opened] using hn) (by simpa [Conn.note, Over] using hover) (by simp [Conn.note])
    exact next_inv (h.note hquiet) (he.note hquiet) (by simpa [Conn.note, Opened] using hn) hfits hne
      (hp (by simp [hstate])) hgood hs
  | tlsConnect =>
    rw [hstate] at hs
    obtain ⟨r, hr, hnext⟩ := Option.bind_eq_some_iff.1 hs
    have hquiet : Event.Quiet (.sslConnect v.ssl) := ⟨nofun, nofun, nofun⟩
    have hn := hnew (by simp [State.Established, hstate])
    obtain ⟨hgood, hfits, hne⟩ := good_tlsConnect check how (c.note (.sslConnect v.ssl)).log v.ssl h.fits
      hstate
      (by simpa [Conn.note, Opened] using hn) (by simpa [Conn.note, Over] using hover)
      (by simp [Conn.note]) hr
    exact next_inv (h.note hquiet) (he.note hquiet) (by simpa [Conn.note, Opened] using hn) hfits hne
      (hp (by simp [hstate])) hgood hnext
  | tlsEstablished =>
    rw [hstate] at hs
    obtain ⟨c₁, hread, hwrite⟩ := Option.bind_eq_some_iff.1 hs
    exact data_inv h he (hp (by simp [hstate])) (h.opened.2 (.inl hstate)) hover hvisit hread hwrite
  | established =>
    rw [hstate] at hs
    obtain ⟨c₁, hread, hwrite⟩ := Option.bind_eq_some_iff.1 hs
    exact data_inv h he (hp (by simp [hstate])) (h.opened.2 (.inr hstate)) hover hvisit hread hwrite

theorem step_inv {c c' : Conn} {a : Act} (h : Inv check how c) (he : Ended c)
    (hs : step check how c a = some c') : Inv check how c' ∧ Ended c' := by
  cases a with
  | visit v =>
    simp only [step] at hs
    split at hs
    · rename_i hopen
      rw [Bool.and_eq_true, Bool.not_eq_true'] at hopen
      have hquiet : Event.Quiet .visit := ⟨nofun, nofun, nofun⟩
      have hover : ¬ Over c.log := by
        rw [← h.shut, hopen.2]
        exact Bool.false_ne_true
      exact selectFdReady_inv (h.note hquiet) (he.note hquiet) (by simpa [Conn.note, Over] using hover)
        ⟨c.log, [], rfl, List.not_mem_nil, hover⟩ hs
    · cases hs
  | lookedUp found body =>
    simp only [step] at hs
    split at hs
    · rename_i hp
      have hquiet : Event.Quiet (.lookedUp found) := ⟨nofun, nofun, nofun⟩
      have hinv := h.note hquiet
      obtain ⟨hstate, hhost, hnone⟩ := hinv.pending hp
      have hside := h.fits.initiated (.inl hstate)
      have hnew : ¬ Opened (c.note (.lookedUp found)).log := by
        rw [hinv.opened, hstate]
        simp [State.Established]
      unfold lookupCallbackHost at hs
      split at hs
      · cases hs
        refine ⟨⟨hinv.each, hinv.shut, h.null, iff_of_false hnew (by simp [State.Established]), ?_, nofun,
          nofun⟩, he.note hquiet⟩
        exact ⟨fun _ => hside, nofun, by simp, h.fits.remoteHost⟩
      · rename_i hfound
        rw [Bool.not_eq_true] at hfound
        subst hfound
        have hallowed : Allowed check how (c.note (.lookedUp false)).log (.call (.failure .lookupFailure)) :=
          ⟨hnew, hnone, hside, hhost, List.getLast?_concat⟩
        have hnoted := inv_call (c := { c.note (.lookedUp false) with pending := false })
          ⟨hinv.each, hinv.shut, h.null, hinv.opened, h.fits, nofun, h.lookup⟩ h.fits hallowed rfl
          (iff_of_false (fun hor => hor.elim hnew (by simp)) fun hest => hnew (hinv.opened.2 hest)) h.lookup
        refine ⟨hnoted.used (used_uses hs), Ended.used ?_ (used_uses hs)⟩
        intro t ht
        rcases List.mem_append.1 ht with hin | hin
        · exact he.note hquiet t hin
        · cases List.mem_singleton.1 hin
          exact .inl rfl
    · cases hs
  | use u =>
    have hu := used_use hs
    exact ⟨h.used hu, he.used hu⟩

theorem start_inv {body : List Use} {c : Conn} (hs : start how body = some c) :
    Inv check how c ∧ Ended c := by
  have hnone : ¬ Opened ([] : List Event) := by simp [Opened]
  have hover : (false = true) ↔ Over ([] : List Event) := by simp [Over]
  cases how with
  | initiate host tls checkHost =>
    cases host with
    | some host =>
      cases hs
      refine ⟨⟨each_nil, hover, nofun, iff_of_false hnone (by simp [State.Established]),
        ⟨fun _ => ⟨_, _, _, rfl⟩, nofun, by simp, rfl⟩, fun _ => ⟨rfl, rfl, fun _ => List.not_mem_nil⟩,
        fun _ => rfl⟩, nofun⟩
    | none =>
      cases hs
      exact ⟨⟨each_nil, hover, nofun, iff_of_false hnone (by simp [State.Established]),
        ⟨fun _ => ⟨_, _, _, rfl⟩, nofun, by simp, rfl⟩, nofun, nofun⟩, nofun⟩
  | accept tls checkHost =>
    cases tls with
    | true =>
      cases hs
      exact ⟨⟨each_nil, hover, nofun, iff_of_false hnone (by simp [State.Established, startTlsServer]),
        ⟨by simp [startTlsServer], fun _ => ⟨_, _, rfl⟩, fun _ => rfl, rfl⟩, nofun, nofun⟩, nofun⟩
    | false =>
      have hu := used_uses hs
      refine ⟨Inv.used ⟨?_, ?_, by simp [Conn.note], ?_, ⟨by simp [Conn.note], by simp [Conn.note],
        by simp [Conn.note], rfl⟩, by simp [Conn.note], by simp [Conn.note]⟩ hu, Ended.used ?_ hu⟩
      · exact each_concat.2 ⟨each_nil, hnone, by simp [Over], ⟨_, _, rfl⟩, rfl⟩
      · exact hover.trans over_call.symm
      · exact iff_of_true (opened_call.2 (.inr (.inr rfl))) (.inr rfl)
      · intro t ht
        cases List.mem_singleton.1 ht

/-- A TLS connection to a host that is looked up. The certificate has its name; after that the peer
ends the connection while there is output, and `writeReady` comes after `close` in the same visit. -/
def client : Start := .initiate (some (bytes "a.net")) true true

def peerCert : X509 := ⟨[some [.dNSName (bytes "*.NET"), .dNSName (bytes "A.net")]], none⟩

def plainCheck (cert : X509) (name : List UInt8) : Bool := Netp.Genf.hostMatch .plain 1 cert name = some true

def clientActs : List Act :=
  [.lookedUp true [], .visit ⟨false, true, 0, .error, [], []⟩, .visit ⟨false, true, 0, .wantRead, [], []⟩,
    .visit ⟨true, false, 0, .success X509_V_OK (some peerCert), [.wantWriteSet true], []⟩,
    .visit ⟨true, true, 0, .error, [.close], []⟩]

def clientLog : List Event :=
  [.lookedUp true, .visit, .connected 0, .visit, .sslConnect .wantRead, .visit,
    .sslConnect (.success X509_V_OK (some peerCert)), .call .connectComplete, .visit, .call .readReady,
    .close, .call .writeReady]

end Inv
end Netp.Genf.Life
