import Netp.Lib.History
import Netp.Tlsproxy.DataSteps

/-! # What the proxy sends before it knows the server

Nothing that the browser sends goes to the server unless the server has shown a certificate that passed
the verification and has the name that TLS was started with, and this since TLS was last started. Until
then the browser gets nothing but the response for a certificate that did not pass. It is the first name
that counts: when the browser names another host later, TLS is started for that one and the certificate
is still held against the first (`proxy_policy`).
-/

namespace Netp.Tlsproxy.Setup
open Netp.Lib Netp.Genf Netp.Genf.Life
set_option autoImplicit false

/-! ## The history of a session -/

def Event.host? : Event → Option (List UInt8)
  | .started host => some host
  | _ => none

/-- The name that TLS was first started with. -/
def firstStarted (log : List Event) : Option (List UInt8) := log.findSome? Event.host?

def NoStart (log : List Event) : Prop := ∀ host, .started host ∉ log

/-- TLS has been started. -/
def Started (log : List Event) : Prop :=
  ∃ host before mid, log = before ++ .started host :: mid ∧ NoStart mid

section Verified
variable (check : Genf.X509 → List UInt8 → Bool)

/-- Since TLS was last started the server has shown a certificate that passed, with the first name. -/
def Verified (log : List Event) : Prop :=
  ∃ name cert before after, log = before ++ .sslConnect (.success X509_V_OK (some cert)) :: after ∧
    Started before ∧ NoStart after ∧ firstStarted log = some name ∧ check cert name = true

def VerifiedBefore (log : List Event) : Prop := ∃ pre, pre <+: log ∧ Verified check pre

/-- A certificate that did not pass. -/
def Refused (log : List Event) : Prop :=
  ∃ verifyResult peer, verifyResult ≠ X509_V_OK ∧ .sslConnect (.success verifyResult peer) ∈ log

def Allowed (pre : List Event) : Event → Prop
  | .wrote .client _ => Verified check pre
  | .wrote .server _ => VerifiedBefore check pre ∨ Refused pre
  | _ => True

variable {check}

theorem firstStarted_append (log ext : List Event) :
    firstStarted (log ++ ext) = (firstStarted log).or (firstStarted ext) := List.findSome?_append

theorem noStart_append {log ext : List Event} : NoStart (log ++ ext) ↔ NoStart log ∧ NoStart ext := by
  simp only [NoStart, List.mem_append, not_or]
  exact forall_and

theorem firstStarted_noStart {ext : List Event} (h : NoStart ext) : firstStarted ext = none := by
  rw [firstStarted, List.findSome?_eq_none_iff]
  intro e he
  cases e with
  | started host => exact absurd he (h host)
  | _ => rfl

theorem Started.append {log ext : List Event} (h : Started log) (hext : NoStart ext) :
    Started (log ++ ext) := by
  obtain ⟨host, before, mid, rfl, hmid⟩ := h
  exact ⟨host, before, mid ++ ext, by simp, noStart_append.2 ⟨hmid, hext⟩⟩

theorem Verified.append {log ext : List Event} (h : Verified check log) (hext : NoStart ext) :
    Verified check (log ++ ext) := by
  obtain ⟨name, cert, before, after, rfl, hstart, hafter, hname, hcheck⟩ := h
  refine ⟨name, cert, before, after ++ ext, by simp, hstart, noStart_append.2 ⟨hafter, hext⟩, ?_, hcheck⟩
  rw [firstStarted_append, hname, Option.some_or]

theorem Verified.before {log : List Event} (h : Verified check log) : VerifiedBefore check log :=
  ⟨log, List.prefix_rfl, h⟩

theorem VerifiedBefore.append {log : List Event} (h : VerifiedBefore check log) (ext : List Event) :
    VerifiedBefore check (log ++ ext) := by
  obtain ⟨pre, hpre, hv⟩ := h
  exact ⟨pre, hpre.trans (List.prefix_append _ _), hv⟩

theorem Refused.append {log : List Event} (h : Refused log) (ext : List Event) :
    Refused (log ++ ext) := by
  obtain ⟨verifyResult, peer, hne, hin⟩ := h
  exact ⟨verifyResult, peer, hne, List.mem_append_left _ hin⟩

end Verified

/-! ## The invariant -/

section Inv
variable {blocklen : ℕ} (check : Genf.X509 → List UInt8 → Bool)

/-- The bytes that were written for a half. -/
def Event.bytes (h : Half) : Event → List UInt8
  | .wrote k data => if k = h then data else []
  | _ => []

structure Inv (s : Session blocklen) : Prop where
  each : Each (Allowed check) s.log
  bytes : ∀ h, (s.proxy.desc h).accepted = s.log.flatMap (Event.bytes h)
  established : ∀ h, (s.proxy.desc h).established = true ↔ (s.fd h).state = .tlsEstablished
  verified : (s.fd .client).state = .tlsEstablished → Verified check s.log
  started : (s.fd .client).state = .tlsConnect → Started s.log
  remoteHost : (s.fd .client).remoteHost = firstStarted s.log
  writing : ∀ f, s.proxy.pc = .writing .client f → (s.fd .client).state = .tlsEstablished
  reading : s.proxy.pc = .reading .client ∨ s.proxy.pc = .writing .server true →
    VerifiedBefore check s.log
  silent : ¬ VerifiedBefore check s.log → (s.proxy.desc .client).accepted = [] ∧
    Response (s.proxy.desc .server)
  refused : ¬ VerifiedBefore check s.log → (s.proxy.desc .server).wbList ≠ [] → Refused s.log
  unused : ¬ VerifiedBefore check s.log → (s.proxy.desc .client).closed = false →
    (s.proxy.desc .server).wbList = [] ∧ (s.proxy.desc .server).accepted = []

variable {check} {s s' : Session blocklen}

/-- Nothing is being sent to the server. -/
def Still (s : Session blocklen) : Prop := ∀ f, s.proxy.pc ≠ .writing .client f

/-! ## Notes and descriptors -/

theorem Inv.note (h : Inv check s) {e : Event} (hstart : NoStart [e]) (hwrote : ∀ k, e.bytes k = [])
    (hallowed : ∀ pre, Allowed check pre e) : Inv check (s.note e) where
  each := each_concat.2 ⟨h.each, hallowed _⟩
  bytes k := by simp [Session.note, hwrote, h.bytes]
  established := h.established
  verified hs := (h.verified hs).append hstart
  started hs := (h.started hs).append hstart
  remoteHost := by
    rw [Session.note, firstStarted_append, firstStarted_noStart hstart, Option.or_none]
    exact h.remoteHost
  writing := h.writing
  reading hr := (h.reading hr).append _
  silent hno := h.silent fun hv => hno (hv.append _)
  refused hno hw := (h.refused (fun hv => hno (hv.append _)) hw).append _
  unused hno := h.unused fun hv => hno (hv.append _)

theorem setFd_desc (s : Session blocklen) (h k : Half) (fd : Fd) :
    ((s.setFd h fd).proxy.desc k).wbList = (s.proxy.desc k).wbList ∧
      ((s.setFd h fd).proxy.desc k).accepted = (s.proxy.desc k).accepted ∧
      ((s.setFd h fd).proxy.desc k).closed = (s.proxy.desc k).closed := by
  cases h <;> cases k <;> exact ⟨rfl, rfl, rfl⟩

theorem setFd_established (h : Inv check s) (k k' : Half) (fd : Fd) :
    ((s.setFd k fd).proxy.desc k').established = true ↔
      ((s.setFd k fd).fd k').state = .tlsEstablished := by
  cases k <;> cases k'
  · exact decide_eq_true_iff
  · exact h.established .server
  · exact h.established .client
  · exact decide_eq_true_iff

/-- Another descriptor for the client half. -/
theorem Inv.setClient (h : Inv check s) (hstill : Still s) (fd : Fd)
    (hverified : fd.state = .tlsEstablished → Verified check s.log)
    (hstarted : fd.state = .tlsConnect → Started s.log)
    (hhost : fd.remoteHost = firstStarted s.log) : Inv check (s.setFd .client fd) where
  each := h.each
  bytes k := (setFd_desc s .client k fd).2.1.trans (h.bytes k)
  established k := setFd_established h .client k fd
  verified := hverified
  started := hstarted
  remoteHost := hhost
  writing f hpc := absurd hpc (hstill f)
  reading := h.reading
  silent hno := ⟨(h.silent hno).1, (h.silent hno).2⟩
  refused := h.refused
  unused := h.unused

theorem Inv.setServer (h : Inv check s) (fd : Fd) : Inv check (s.setFd .server fd) where
  each := h.each
  bytes k := (setFd_desc s .server k fd).2.1.trans (h.bytes k)
  established k := setFd_established h .server k fd
  verified := h.verified
  started := h.started
  remoteHost := h.remoteHost
  writing := h.writing
  reading := h.reading
  silent hno := ⟨(h.silent hno).1, (h.silent hno).2.of_eq rfl rfl⟩
  refused := h.refused
  unused := h.unused

theorem Inv.close (h : Inv check s) : Inv check (s.close .client) := by
  unfold Session.close
  split
  · refine ⟨h.each, fun k => ?_, fun k => ?_, h.verified, h.started, h.remoteHost, h.writing, h.reading,
      h.silent, h.refused, fun _ hc => ?_⟩
    · rw [← h.bytes k]
      cases k <;> rfl
    · rw [← h.established k]
      cases k <;> exact Iff.rfl
    · cases hc
  · exact h

theorem Inv.maybeStart (h : Inv check s) (hstill : Still s) (hs : maybeStartTlsClient s = some s') :
    Inv check s' := by
  unfold maybeStartTlsClient at hs
  split at hs
  · split at hs
    · cases hs
      set fd : Fd := { startTlsClient (some s.hostname) (s.fd .client) with state := .tlsConnect } with hfd
      have hstart : Started (s.log ++ [.started s.hostname]) :=
        ⟨s.hostname, s.log, [], rfl, fun _ => List.not_mem_nil⟩
      refine ⟨each_concat.2 ⟨h.each, trivial⟩, fun k => ?_, fun k => setFd_established h .client k fd, nofun,
        fun _ => hstart, ?_, fun f hpc => absurd hpc (hstill f), fun hr => (h.reading hr).append _,
        fun hno => ?_, fun hno hw => ?_, fun hno => ?_⟩
      · refine ((setFd_desc s .client k fd).2.1.trans (h.bytes k)).trans ?_
        simp [Session.note, Session.setFd, Event.bytes]
      · rw [Session.note, Session.setFd, firstStarted_append, ← h.remoteHost]
        rfl
      · exact h.silent fun hv => hno (hv.append _)
      · exact (h.refused (fun hv => hno (hv.append _)) hw).append _
      · exact h.unused fun hv => hno (hv.append _)
    · cases hs
  · cases hs
    exact h

/-! ## Data steps -/

theorem written_cases {p p' : Proxy blocklen} {k : Half}
    (h : (p.desc k).accepted <+: (p'.desc k).accepted) :
    (Session.written k p p' = [] ∧ (p'.desc k).accepted = (p.desc k).accepted) ∨
      ∃ data, Session.written k p p' = [.wrote k data] ∧ data ≠ [] ∧
        (p'.desc k).accepted = (p.desc k).accepted ++ data := by
  obtain ⟨data, hdata⟩ := h
  have hdrop : (p'.desc k).accepted.drop (p.desc k).accepted.length = data := by
    rw [← hdata, List.drop_left]
  unfold Session.written
  rw [hdrop, ← hdata]
  cases data with
  | nil => exact .inl ⟨rfl, List.append_nil _⟩
  | cons b data => exact .inr ⟨b :: data, rfl, List.cons_ne_nil _ _, rfl⟩

/-- What is written is noted, and allowed. -/
theorem Inv.setProxy (h : Inv check s) {p : Proxy blocklen}
    (hest : ∀ k, (p.desc k).established = (s.proxy.desc k).established)
    (hgrown : ∀ k, (s.proxy.desc k).accepted <+: (p.desc k).accepted)
    (hclient : (p.desc .client).accepted ≠ (s.proxy.desc .client).accepted → Verified check s.log)
    (hserver : (p.desc .server).accepted ≠ (s.proxy.desc .server).accepted →
      VerifiedBefore check s.log ∨ Refused s.log)
    (hwriting : ∀ f, p.pc = .writing .client f → (s.fd .client).state = .tlsEstablished)
    (hreading : p.pc = .reading .client ∨ p.pc = .writing .server true → VerifiedBefore check s.log)
    (hresponse : ¬ VerifiedBefore check s.log → Response (p.desc .server))
    (hrefused : ¬ VerifiedBefore check s.log → (p.desc .server).wbList ≠ [] → Refused s.log)
    (hunused : ¬ VerifiedBefore check s.log → (p.desc .client).closed = false →
      (p.desc .server).wbList = [] ∧ (p.desc .server).accepted = []) : Inv check (s.setProxy p) := by
  have hlog : (s.setProxy p).log =
      s.log ++ (Session.written .client s.proxy p ++ Session.written .server s.proxy p) :=
    List.append_assoc _ _ _
  have hstart : NoStart (Session.written .client s.proxy p ++ Session.written .server s.proxy p) := by
    rw [noStart_append]
    constructor <;>
    · intro host
      rcases written_cases (hgrown _) with ⟨hw, -⟩ | ⟨data, hw, -⟩ <;> rw [hw] <;> simp
  have hno : ¬ VerifiedBefore check (s.setProxy p).log → ¬ VerifiedBefore check s.log := by
    rw [hlog]
    exact fun hno hv => hno (hv.append _)
  constructor
  · have hone : Each (Allowed check) (s.log ++ Session.written .client s.proxy p) := by
      rcases written_cases (hgrown .client) with ⟨hw, -⟩ | ⟨data, hw, hne, hacc⟩
      · rw [hw, List.append_nil]
        exact h.each
      · rw [hw, each_concat]
        refine ⟨h.each, hclient ?_⟩
        rw [hacc]
        simpa using hne
    show Each (Allowed check) (s.log ++ Session.written .client s.proxy p ++ Session.written .server s.proxy p)
    rcases written_cases (hgrown .server) with ⟨hw, -⟩ | ⟨data, hw, hne, hacc⟩
    · rw [hw, List.append_nil]
      exact hone
    · rw [hw, each_concat]
      refine ⟨hone, (hserver ?_).imp (fun hv => hv.append _) fun hr => hr.append _⟩
      rw [hacc]
      simpa using hne
  · intro k
    rw [hlog, List.flatMap_append, List.flatMap_append, ← h.bytes k]
    show (p.desc k).accepted = _
    rcases written_cases (hgrown .client) with ⟨hw, hacc⟩ | ⟨data, hw, -, hacc⟩ <;>
      rcases written_cases (hgrown .server) with ⟨hw', hacc'⟩ | ⟨data', hw', -, hacc'⟩ <;>
      cases k <;> simp [hw, hw', hacc, hacc', Event.bytes]
  · intro k
    show (p.desc k).established = true ↔ _
    rw [hest k]
    exact h.established k
  · intro hs
    rw [hlog]
    exact (h.verified hs).append hstart
  · intro hs
    rw [hlog]
    exact (h.started hs).append hstart
  · rw [hlog, firstStarted_append, firstStarted_noStart hstart, Option.or_none]
    exact h.remoteHost
  · exact hwriting
  · intro hr
    rw [hlog]
    exact (hreading hr).append _
  · intro hnew
    refine ⟨?_, hresponse (hno hnew)⟩
    by_contra hne
    apply hno hnew
    refine (hclient fun heq => hne ?_).before
    exact heq.trans (h.silent (hno hnew)).1
  · intro hnew hw
    rw [hlog]
    exact (hrefused (hno hnew) hw).append _
  · exact fun hnew => hunused (hno hnew)

theorem Inv.data (h : Inv check s) {a : Tlsproxy.Act} {p : Proxy blocklen} (ha : ∀ k, a ≠ .established k)
    (hs : Tlsproxy.step s.proxy a = some p) : Inv check (s.setProxy p) := by
  have hm := moved_step ha hs
  have hwrites : ∀ k, (p.desc k).accepted ≠ (s.proxy.desc k).accepted →
      ∃ f, s.proxy.pc = .writing k f := by
    intro k hne
    by_contra hnone
    exact hne (hm.accepted k fun f hf => hnone ⟨f, hf⟩)
  have hround : ∀ {f}, s.proxy.pc = .writing .server f →
      ∃ res, p = writeRound .server f res s.proxy := by
    intro f hpc
    unfold Tlsproxy.step at hs
    rw [hpc] at hs
    cases a with
    | tlsWrite res => exact ⟨res, (Option.some.inj hs).symm⟩
    | _ => cases hs
  have hcalm : ¬ VerifiedBefore check s.log → (∀ f, s.proxy.pc ≠ .writing .server f) →
      (p.desc .server).wbList = (s.proxy.desc .server).wbList ∧
        (p.desc .server).accepted = (s.proxy.desc .server).accepted := by
    intro hno hw
    exact ⟨hm.wbList .server hw fun hr => hno (h.reading (.inl hr)), hm.accepted .server hw⟩
  have hempty : ¬ VerifiedBefore check s.log → (s.proxy.desc .server).wbList = [] →
      (p.desc .server).wbList = [] ∧
        (p.desc .server).accepted = (s.proxy.desc .server).accepted := by
    intro hno hnil
    by_cases hw : ∃ f, s.proxy.pc = .writing .server f
    · obtain ⟨f, hf⟩ := hw
      obtain ⟨res, rfl⟩ := hround hf
      exact ⟨(writeRound_empty res hnil).2, (writeRound_empty res hnil).1⟩
    · obtain ⟨hwb, hacc⟩ := hcalm hno fun f hf => hw ⟨f, hf⟩
      exact ⟨hwb.trans hnil, hacc⟩
  refine h.setProxy hm.established hm.grown (fun hne => ?_) (fun hne => ?_) (fun f hf => ?_) (fun hr => ?_)
    (fun hno => ?_) (fun hno hwb => ?_) (fun hno hopen => ?_)
  · obtain ⟨f, hf⟩ := hwrites .client hne
    exact h.verified (h.writing f hf)
  · by_contra hnone
    rw [not_or] at hnone
    apply hne
    refine (hempty hnone.1 ?_).2
    by_contra hwb
    exact hnone.2 (h.refused hnone.1 hwb)
  · rcases hm.writing .client f hf with hw | ⟨hest, -⟩
    · exact h.writing f hw
    · exact (h.established .client).1 hest
  · rcases hr with hr | hr
    · rcases hm.reading .client hr with hr | hw | hest
      · exact h.reading (.inl hr)
      · exact h.reading (.inr hw)
      · exact (h.verified ((h.established .client).1 hest)).before
    · rcases hm.writing .server true hr with hw | ⟨-, hr⟩
      · exact h.reading (.inr hw)
      · exact h.reading (.inl (hr rfl))
  · by_cases hw : ∃ f, s.proxy.pc = .writing .server f
    · obtain ⟨f, hf⟩ := hw
      obtain ⟨res, rfl⟩ := hround hf
      exact response_writeRound res (h.silent hno).2
    · obtain ⟨hwb, hacc⟩ := hcalm hno fun f hf => hw ⟨f, hf⟩
      exact (h.silent hno).2.of_eq hwb hacc
  · refine h.refused hno fun hnil => hwb (hempty hno hnil).1
  · have hbefore : (s.proxy.desc .client).closed = false := by
      by_contra hc
      rw [hm.closed .client (Bool.eq_true_of_not_eq_false hc)] at hopen
      cases hopen
    obtain ⟨hwb, hacc⟩ := h.unused hno hbefore
    exact ⟨(hempty hno hwb).1, (hempty hno hwb).2.trans hacc⟩

/-! ## The response to the browser -/

/-- What the rounds of the response keep, from the state `p` that they begin in. -/
structure Answering (p q : Proxy blocklen) : Prop where
  established : ∀ k, (q.desc k).established = (p.desc k).established
  client : (q.desc .client).accepted = (p.desc .client).accepted
  grown : (p.desc .server).accepted <+: (q.desc .server).accepted
  response : Response (p.desc .server) → Response (q.desc .server)
  pc : q.pc = .idle ∨ q.pc = .writing .server false

theorem Answering.round {p q : Proxy blocklen} (h : Answering p q) (res : WriteRes)
    (hpc : q.pc = .writing .server false) : Answering p (writeRound .server false res q) := by
  have hm := moved_writeRound hpc res
  refine ⟨fun k => (hm.established k).trans (h.established k), ?_, h.grown.trans (hm.grown .server),
    fun hr => response_writeRound res (h.response hr), writeRound_pc hpc⟩
  refine (hm.accepted .client ?_).trans h.client
  intro f hf
  rw [hpc] at hf
  cases hf

theorem answering_write (p : Proxy blocklen) (writes : List WriteRes) :
    Answering p (proxyShutdown .client (writeRounds writes (proxyWrite .server false p))) := by
  have hbegin : Answering p (proxyWrite .server false p) := by
    unfold proxyWrite
    split
    · exact ⟨fun _ => rfl, rfl, List.prefix_rfl, id, .inr rfl⟩
    · refine ⟨fun k => ?_, rfl, List.prefix_rfl, fun hr => hr.of_eq rfl rfl, .inl ?_⟩
      · cases k <;> rfl
      · rcases writeReturns_pc (p.set .server { p.desc .server with tlsWantWrite := true }) .server false
          with hidle | hread
        · exact hidle
        · cases hread.1
  have hrounds := writeRounds_keep (Q := Answering p) writes (fun q res hq h => h.round res hq) hbegin
  generalize writeRounds writes (proxyWrite .server false p) = q at hrounds
  have hshut := proxyShutdown_desc q .client
  refine ⟨fun k => (hshut k).1.trans (hrounds.established k), (hshut _).2.2.1.trans hrounds.client, ?_,
    fun hr => (hrounds.response hr).of_eq (hshut _).2.2.2 (hshut _).2.2.1, hrounds.pc⟩
  rw [(hshut .server).2.2.1]
  exact hrounds.grown

/-- `sslPeerFailedVerify`, after a certificate was refused or one was verified. -/
theorem Inv.respond (h : Inv check s) (writes : List WriteRes)
    (hopen : (s.proxy.desc .client).closed = false)
    (hwhy : VerifiedBefore check s.log ∨ Refused s.log) : Inv check (sslPeerFailedVerify writes s) := by
  unfold sslPeerFailedVerify
  have hqueued := readIn_same (s.proxy.desc .server).addSpace verifyResponse
  generalize hd : (s.proxy.desc .server).addSpace.readIn verifyResponse = d at hqueued
  have hestd : d.established = (s.proxy.desc .server).established := hqueued.established
  have haccd : d.accepted = (s.proxy.desc .server).accepted := hqueued.accepted
  have ha := answering_write (s.proxy.set .server d) writes
  have hclosed := (proxyShutdown_desc (writeRounds writes (proxyWrite .server false (s.proxy.set .server d)))
    .client .client).2.1
  dsimp only
  generalize proxyShutdown .client (writeRounds writes (proxyWrite .server false (s.proxy.set .server d))) = q
    at ha hclosed
  have hnot : ∀ pc, pc ≠ .idle → pc ≠ .writing .server false → q.pc ≠ pc := by
    rintro pc hidle hwriting rfl
    exact ha.pc.elim hidle hwriting
  refine h.setProxy (fun k => ?_) (fun k => ?_) (fun hne => absurd ha.client hne) (fun _ => hwhy)
    (fun f hf => absurd hf (hnot _ nofun nofun)) (fun hr => ?_) (fun hno => ?_)
    (fun hno _ => hwhy.resolve_left hno) (fun _ hc => ?_)
  · rw [ha.established k]
    cases k
    · rfl
    · exact hestd
  · cases k
    · rw [ha.client]
      exact List.prefix_rfl
    · refine List.IsPrefix.trans ?_ ha.grown
      exact haccd ▸ List.prefix_rfl
  · exact hr.elim (fun hr => absurd hr (hnot _ nofun nofun)) fun hr => absurd hr (hnot _ nofun nofun)
  · obtain ⟨hwb, hacc⟩ := h.unused hno hopen
    exact ha.response (hd ▸ response_queued hwb hacc)
  · rw [hclosed] at hc
    cases hc

/-! ## Steps and runs -/

theorem visited_spec {k : Half} {state : State} (h : visited k state s = true) :
    s.proxy.pc = .idle ∧ (s.proxy.desc k).closed = false ∧ (s.fd k).state = state := by
  simpa [visited, and_assoc] using h

theorem still_of_idle (h : s.proxy.pc = .idle) : Still s := by
  intro f hf
  rw [h] at hf
  cases hf

theorem Inv.thread (h : Inv check s) (writes : List WriteRes) (hpc : s.proxy.pc = .idle)
    (hopen : (s.proxy.desc .client).closed = false) (hv : Verified check s.log) :
    Inv check (threadConnectComplete writes s) := by
  unfold threadConnectComplete
  dsimp only
  split
  · exact h.respond writes hopen (.inl hv.before)
  · have hset := h.setClient (still_of_idle hpc) { s.fd .client with
      state := .tlsEstablished, tlsEstablished := true, tlsWantRead := true } (fun _ => hv) nofun h.remoteHost
    exact ⟨hset.each, hset.bytes, hset.established, hset.verified, hset.started, hset.remoteHost, nofun,
      fun _ => hv.before, hset.silent, hset.refused, hset.unused⟩

theorem inv_connectReady {writeReady : Bool} {option : ℤ} (h : Inv check s)
    (hv : visited .client .connect s = true)
    (hs : step check s (.connectReady writeReady option) = some s') : Inv check s' := by
  obtain ⟨hpc, -, hstate⟩ := visited_spec hv
  have hstill := still_of_idle hpc
  unfold step at hs
  dsimp only at hs
  rw [if_pos hv] at hs
  cases writeReady with
  | false =>
    cases hs
    exact h.setClient hstill _ (fun hs => by simp [connConnectReady, hstate] at hs)
      (fun hs => by simp [connConnectReady, hstate] at hs) h.remoteHost
  | true =>
    have hnote := h.note (e := .connected option) (by simp [NoStart]) (fun _ => rfl) fun _ => trivial
    by_cases hzero : option = 0
    · subst hzero
      have hplain := hnote.setClient hstill { s.fd .client with
        wantWrite := false, state := .established, wantRead := true } nofun nofun hnote.remoteHost
      have hlimbo := hplain.setClient hstill { s.fd .client with
        wantWrite := false, state := .connect, wantRead := false } nofun nofun hnote.remoteHost
      have hconnected : Inv check { (((s.note (.connected 0)).setFd .client { s.fd .client with
          wantWrite := false, state := .established, wantRead := true }).setFd .client { s.fd .client with
          wantWrite := false, state := .connect, wantRead := false }) with connected := true } :=
        ⟨hlimbo.each, hlimbo.bytes, hlimbo.established, hlimbo.verified, hlimbo.started,
          hlimbo.remoteHost, hlimbo.writing, hlimbo.reading, hlimbo.silent, hlimbo.refused, hlimbo.unused⟩
      exact hconnected.maybeStart hstill hs
    · simp only [connConnectReady, if_neg hzero, if_true, clientNext, Option.some.injEq] at hs
      rw [← hs]
      refine Inv.close ?_
      exact hnote.setClient hstill _ (fun hs => by simp [hstate] at hs) (fun hs => by simp [hstate] at hs)
        hnote.remoteHost

/-- A handshake that succeeded with the right name is a verification. -/
theorem verified_of_match {log : List Event} {peer : Option Genf.X509} {name : Option (List UInt8)}
    (hstart : Started log) (hname : name = firstStarted log)
    (h : Life.hostMatch check peer name = some true) :
    Verified check (log ++ [.sslConnect (.success X509_V_OK peer)]) := by
  cases peer with
  | none => cases h
  | some cert =>
    obtain ⟨host, rfl, hcheck⟩ := Option.map_eq_some_iff.1 h
    refine ⟨host, cert, log, [], rfl, hstart, fun _ => List.not_mem_nil, ?_, hcheck⟩
    rw [firstStarted_append, ← hname, Option.some_or]

theorem inv_tlsConnectReady {result : SslResult} {writes : List WriteRes} (h : Inv check s)
    (hv : visited .client .tlsConnect s = true)
    (hs : step check s (.tlsConnectReady result writes) = some s') : Inv check s' := by
  obtain ⟨hpc, hopen, hstate⟩ := visited_spec hv
  have hstill := still_of_idle hpc
  have hstart := h.started hstate
  have hnote := h.note (e := .sslConnect result) (by simp [NoStart]) (fun _ => rfl) fun _ => trivial
  have hstarted := hnote.started hstate
  have hround : ∀ fd : Fd, fd.state = .tlsConnect → fd.remoteHost = (s.fd .client).remoteHost →
      Inv check ((s.note (.sslConnect result)).setFd .client fd) := by
    intro fd hfd hhost
    refine hnote.setClient hstill _ (fun hs => ?_) (fun _ => hstarted) (hhost.trans hnote.remoteHost)
    rw [hfd] at hs
    cases hs
  unfold step at hs
  dsimp only at hs
  rw [if_pos hv] at hs
  obtain ⟨r, hr, hnext⟩ := Option.bind_eq_some_iff.1 hs
  cases result with
  | success verifyResult peer =>
    simp only [connTlsConnectReady] at hr
    split at hr
    · rename_i hbad
      cases hr
      have hset := hround { s.fd .client with sslVerifyError := true } hstate rfl
      cases hnext
      refine (hset.respond writes hopen (.inr ?_)).close
      exact ⟨verifyResult, peer, hbad, List.mem_append_right _ List.mem_cons_self⟩
    · rename_i hgood
      rw [not_not] at hgood
      subst hgood
      rw [if_pos trivial] at hr
      obtain ⟨matched, hmatch, rfl⟩ := Option.map_eq_some_iff.1 hr
      cases matched with
      | true =>
        have hverified := verified_of_match hstart h.remoteHost hmatch
        have hset := hnote.setClient hstill { s.fd .client with
          state := .tlsEstablished, tlsEstablished := true, tlsWantRead := true } (fun _ => hverified) nofun
          hnote.remoteHost
        cases hnext
        exact hset.thread writes hpc hopen hverified
      | false =>
        have hset := hround { s.fd .client with sslVerifyError := true } hstate rfl
        cases hnext
        exact hset.close
  | wantRead =>
    cases hr
    cases hnext
    exact hround _ hstate rfl
  | wantWrite =>
    cases hr
    cases hnext
    exact hround _ hstate rfl
  | error =>
    cases hr
    cases hnext
    exact hround _ hstate rfl

theorem inv_tlsAcceptReady {result : SslResult} (h : Inv check s)
    (hv : visited .server .tlsAccept s = true)
    (hs : step check s (.tlsAcceptReady result) = some s') : Inv check s' := by
  have hnote := h.note (e := .sslAccept result) (by simp [NoStart]) (fun _ => rfl) fun _ => trivial
  unfold step at hs
  dsimp only at hs
  rw [if_pos hv] at hs
  split at hs
  · cases hs
    have hset := hnote.setServer { (connTlsAcceptReady result (s.fd .server)).1 with tlsWantRead := true }
    exact ⟨hset.each, hset.bytes, hset.established, hset.verified, hset.started, hset.remoteHost, nofun,
      by simp, hset.silent, hset.refused, hset.unused⟩
  · cases hs
    exact hnote.setServer _

theorem inv_serverName {host : List UInt8} (h : Inv check s)
    (hs : step check s (.serverName host) = some s') : Inv check s' := by
  have hnote := h.note (e := .serverName host) (by simp [NoStart]) (fun _ => rfl) fun _ => trivial
  unfold step at hs
  dsimp only at hs
  split at hs
  · rename_i hbusy
    rw [Bool.and_eq_true] at hbusy
    have hstill : Still s := by
      intro f hf
      simp [serverBusy, hf] at hbusy
    refine Inv.maybeStart (s := { s.note (.serverName host) with haveHostname := true, hostname := host })
      ?_ hstill hs
    exact ⟨hnote.each, hnote.bytes, hnote.established, hnote.verified, hnote.started, hnote.remoteHost,
      hnote.writing, hnote.reading, hnote.silent, hnote.refused, hnote.unused⟩
  · cases hs

theorem step_inv {a : Act} (h : Inv check s) (hs : step check s a = some s') : Inv check s' := by
  cases a with
  | connectReady writeReady option =>
    by_cases hv : visited .client .connect s = true
    · exact inv_connectReady h hv hs
    · simp [step, hv] at hs
  | tlsConnectReady result writes =>
    by_cases hv : visited .client .tlsConnect s = true
    · exact inv_tlsConnectReady h hv hs
    · simp [step, hv] at hs
  | tlsAcceptReady result =>
    by_cases hv : visited .server .tlsAccept s = true
    · exact inv_tlsAcceptReady h hv hs
    · simp [step, hv] at hs
  | serverName host => exact inv_serverName h hs
  | data a =>
    cases a with
    | established k => cases hs
    | _ =>
      simp only [step] at hs
      split at hs
      · obtain ⟨p, hp, rfl⟩ := Option.map_eq_some_iff.1 hs
        refine h.data ?_ hp
        exact nofun
      · cases hs

theorem inv_start : Inv check (start : Session blocklen) where
  each := each_nil
  bytes _ := rfl
  established k := by cases k <;> simp [start, Tlsproxy.start, startTlsServer]
  verified := nofun
  started := nofun
  remoteHost := rfl
  writing := nofun
  reading := by simp [start, Tlsproxy.start]
  silent _ := ⟨rfl, .inl ⟨rfl, List.nil_prefix⟩⟩
  refused _ hw := absurd rfl hw
  unused _ _ := ⟨rfl, rfl⟩

/-- In every run of a proxied connection the history has all that was written, the server gets nothing
from the browser before it was verified for the TLS that is in use, and until a server was verified the
browser gets nothing but the response for one that was refused. -/
theorem proxy_policy (check : Genf.X509 → List UInt8 → Bool) (blocklen : ℕ) (s : Session blocklen)
    (hs : Reach (system check blocklen) s) :
    Each (Allowed check) s.log ∧
      (∀ h, (s.proxy.desc h).accepted = s.log.flatMap (Event.bytes h)) ∧
      (¬ VerifiedBefore check s.log → (s.proxy.desc .client).accepted = [] ∧
        (s.proxy.desc .server).accepted <+: verifyResponse) := by
  have hinv : Inv check s := by
    refine ReachIf.invariant (I := Inv check) inv_start ?_ hs
    intro s a s' h _ hstep
    exact step_inv h hstep
  exact ⟨hinv.each, hinv.bytes, fun hno => ⟨(hinv.silent hno).1, (hinv.silent hno).2.accepted⟩⟩

/-! ## A run -/

def serverCert : Genf.X509 := ⟨[some [.dNSName (bytes "A.net")]], none⟩

def plainCheck (cert : Genf.X509) (name : List UInt8) : Bool := Netp.Genf.hostMatch .plain 1 cert name = some true

/-- The browser names its host and sends a byte before the server has shown its certificate. -/
def firstByte : List Act :=
  [.connectReady true 0, .serverName (bytes "a.net"), .tlsAcceptReady (.success X509_V_OK none),
    .data (.tlsRead (.read [71])), .data (.tlsRead (.read [])),
    .tlsConnectReady (.success X509_V_OK (some serverCert)) [], .data (.tlsRead (.read [])),
    .data (.writeReady .client), .data (.tlsWrite (.wrote 1))]

def firstByteLog : List Event :=
  [.connected 0, .serverName (bytes "a.net"), .started (bytes "a.net"),
    .sslAccept (.success X509_V_OK none), .sslConnect (.success X509_V_OK (some serverCert)),
    .wrote .client [71]]

theorem proxy_policy_firstByte : ∃ s, run (system plainCheck 16) start firstByte = some s ∧
    s.log = firstByteLog ∧ Each (Allowed plainCheck) firstByteLog := by
  have hlog : (run (system plainCheck 16) start firstByte).map Session.log = some firstByteLog := by rfl
  obtain ⟨s, hrun, hs⟩ := Option.map_eq_some_iff.1 hlog
  refine ⟨s, hrun, hs, ?_⟩
  rw [← hs]
  exact (proxy_policy plainCheck 16 s (Reach.run .init hrun)).1

/-! ## A server that is lost -/

/-- The connection to the server goes on after an event: it was not refused, and neither was the
certificate of the server or its name. -/
def Keeps (check : Genf.X509 → List UInt8 → Bool) (pre : List Event) : Event → Prop
  | .connected option => option = 0
  | .sslConnect (.success verifyResult peer) =>
      verifyResult = X509_V_OK ∧ Life.hostMatch check peer (firstStarted pre) ≠ some false
  | _ => True

/-- The pointers of the two halves. -/
structure Pointers (check : Genf.X509 → List UInt8 → Bool) (s : Session blocklen) : Prop where
  server : s.selectFd .server = true
  client : s.selectFd .client = true ↔ Each (Keeps check) s.log

theorem Pointers.note (h : Pointers check s) {e : Event} (he : Keeps check s.log e) :
    Pointers check (s.note e) where
  server := h.server
  client := by
    rw [Session.note, each_concat, and_iff_left he]
    exact h.client

theorem Pointers.of_same (h : Pointers check s) (hsel : s'.selectFd = s.selectFd) (hlog : s'.log = s.log) :
    Pointers check s' where
  server := by
    rw [hsel]
    exact h.server
  client := by
    rw [hsel, hlog]
    exact h.client

theorem Pointers.setProxy (h : Pointers check s) (p : Proxy blocklen) : Pointers check (s.setProxy p) where
  server := h.server
  client := by
    refine h.client.trans ?_
    have hwritten : ∀ k, ∀ e ∈ Session.written k s.proxy p, ∀ pre, Keeps check pre e := by
      intro k e he pre
      unfold Session.written at he
      split at he
      · cases he
      · rw [List.mem_singleton.1 he]
        trivial
    constructor
    · intro hall
      exact (hall.append (hwritten .client)).append (hwritten .server)
    · exact fun hall => hall.left.left

theorem Pointers.close (hserver : s.selectFd .server = true) (h : ¬ Each (Keeps check) s.log) :
    Pointers check (s.close .client) := by
  unfold Session.close
  split
  · exact ⟨hserver, iff_of_false Bool.false_ne_true h⟩
  · rename_i hnull
    exact ⟨hserver, iff_of_false hnull h⟩

theorem Pointers.maybeStart (h : Pointers check s) (hs : maybeStartTlsClient s = some s') :
    Pointers check s' := by
  unfold maybeStartTlsClient at hs
  split at hs
  · split at hs
    · cases hs
      refine Pointers.note ?_ trivial
      exact h.of_same rfl rfl
    · cases hs
  · cases hs
    exact h

theorem Pointers.thread (h : Pointers check s) (writes : List WriteRes) :
    Pointers check (threadConnectComplete writes s) := by
  unfold threadConnectComplete sslPeerFailedVerify
  dsimp only
  split
  · exact h.setProxy _
  · exact h.of_same rfl rfl

theorem pointers_step {a : Act} (hinv : Inv check s) (h : Pointers check s)
    (hs : step check s a = some s') : Pointers check s' := by
  cases a with
  | connectReady writeReady option =>
    by_cases hv : visited .client .connect s = true
    · unfold step at hs
      dsimp only at hs
      rw [if_pos hv] at hs
      cases writeReady with
      | false =>
        cases hs
        exact h.of_same rfl rfl
      | true =>
        by_cases hzero : option = 0
        · subst hzero
          have hnote := h.note (e := .connected 0) rfl
          have hconnected : Pointers check { (((s.note (.connected 0)).setFd .client { s.fd .client with
              wantWrite := false, state := .established, wantRead := true }).setFd .client { s.fd .client with
              wantWrite := false, state := .connect, wantRead := false }) with connected := true } :=
            hnote.of_same rfl rfl
          exact hconnected.maybeStart hs
        · simp only [connConnectReady, if_neg hzero, if_true, clientNext, Option.some.injEq] at hs
          rw [← hs]
          refine Pointers.close h.server fun hall => ?_
          exact hzero (each_concat.1 hall).2
    · simp [step, hv] at hs
  | tlsConnectReady result writes =>
    by_cases hv : visited .client .tlsConnect s = true
    · unfold step at hs
      dsimp only at hs
      rw [if_pos hv] at hs
      obtain ⟨r, hr, hnext⟩ := Option.bind_eq_some_iff.1 hs
      cases result with
      | success verifyResult peer =>
        simp only [connTlsConnectReady] at hr
        split at hr
        · rename_i hbad
          cases hr
          cases hnext
          refine Pointers.close h.server fun hall => ?_
          exact hbad (each_concat.1 hall.left.left).2.1
        · rename_i hgood
          rw [not_not] at hgood
          subst hgood
          rw [if_pos trivial] at hr
          obtain ⟨matched, hmatch, rfl⟩ := Option.map_eq_some_iff.1 hr
          rw [hinv.remoteHost] at hmatch
          cases matched with
          | true =>
            have hnote := h.note (e := .sslConnect (.success X509_V_OK peer)) ⟨rfl, by simp [hmatch]⟩
            cases hnext
            refine Pointers.thread ?_ writes
            exact hnote.of_same rfl rfl
          | false =>
            cases hnext
            refine Pointers.close h.server fun hall => ?_
            exact (each_concat.1 hall).2.2 hmatch
      | wantRead =>
        cases hr
        cases hnext
        exact Pointers.of_same (h.note (e := .sslConnect .wantRead) trivial) rfl rfl
      | wantWrite =>
        cases hr
        cases hnext
        exact Pointers.of_same (h.note (e := .sslConnect .wantWrite) trivial) rfl rfl
      | error =>
        cases hr
        cases hnext
        exact Pointers.of_same (h.note (e := .sslConnect .error) trivial) rfl rfl
    · simp [step, hv] at hs
  | tlsAcceptReady result =>
    by_cases hv : visited .server .tlsAccept s = true
    · unfold step at hs
      dsimp only at hs
      rw [if_pos hv] at hs
      have hnote := h.note (e := .sslAccept result) trivial
      split at hs <;>
      · cases hs
        exact hnote.of_same rfl rfl
    · simp [step, hv] at hs
  | serverName host =>
    unfold step at hs
    dsimp only at hs
    split at hs
    · refine Pointers.maybeStart ?_ hs
      exact Pointers.of_same (h.note (e := .serverName host) trivial) rfl rfl
    · cases hs
  | data a =>
    cases a with
    | established k => cases hs
    | _ =>
      simp only [step] at hs
      split at hs
      · obtain ⟨p, hp, rfl⟩ := Option.map_eq_some_iff.1 hs
        exact h.setProxy p
      · cases hs

/-- The code goes through a null pointer. -/
def Faults (s : Session blocklen) (a : Act) : Prop := ∃ h, a.touches s = some h ∧ s.selectFd h = false

/-- In every run the code goes through a null pointer exactly where it goes through that of the client half
after the connection to the server was refused, or the server's certificate or its name. -/
theorem faults_iff (check : Genf.X509 → List UInt8 → Bool) (blocklen : ℕ) (s : Session blocklen) (a : Act)
    (hs : Reach (system check blocklen) s) :
    Faults s a ↔ a.touches s = some .client ∧ ¬ Each (Keeps check) s.log := by
  have hinv : Inv check s ∧ Pointers check s := by
    refine ReachIf.invariant (I := fun s => Inv check s ∧ Pointers check s) ⟨inv_start, rfl, ?_⟩ ?_ hs
    · exact iff_of_true rfl each_nil
    · intro s a s' h _ hstep
      exact ⟨step_inv h.1 hstep, pointers_step h.1 h.2 hstep⟩
  obtain ⟨hserver, hclient⟩ := hinv.2
  rw [← hclient, Bool.not_eq_true]
  constructor
  · rintro ⟨h, htouch, hnull⟩
    cases h with
    | client => exact ⟨htouch, hnull⟩
    | server =>
      rw [hserver] at hnull
      cases hnull
  · rintro ⟨htouch, hnull⟩
    exact ⟨.client, htouch, hnull⟩

/-- The server refuses the connection, and the browser then hangs up. -/
def refused : List Act :=
  [.connectReady true 111, .serverName (bytes "a.net"), .tlsAcceptReady (.success X509_V_OK none)]

theorem faults_iff_refused : ∃ s, run (system (fun _ _ => true) 16) start refused = some s ∧
    Faults s (.data (.tlsRead .error)) ∧ ¬ Each (Keeps fun _ _ => true) s.log := by
  have hend : (run (system (fun _ _ => true) 16) start refused).map (fun s =>
      ((Act.data (.tlsRead .error)).touches s, s.selectFd .client)) = some (some .client, false) := by rfl
  obtain ⟨s, hrun, hs⟩ := Option.map_eq_some_iff.1 hend
  rw [Prod.mk.injEq] at hs
  have hfault : Faults s (.data (.tlsRead .error)) := ⟨.client, hs.1, hs.2⟩
  exact ⟨s, hrun, hfault, ((faults_iff _ 16 s _ (Reach.run .init hrun)).1 hfault).2⟩

end Inv
end Netp.Tlsproxy.Setup
