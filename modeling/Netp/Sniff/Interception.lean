import Netp.Parse.DnsDecode
import Netp.Shuttle.Latency
import Netp.Sniff.Redirect

/-! # From a DNS response to the frames of a link

The sniffer writes each address it reports to the control ring of a link (`SniffThread::matchedDns`), and
the link takes the commands from there. So TLS to the address of an A record that the sniffer matched is
kept from the outside, as soon as the link has handled as many frames as the ring holds messages, and as
long as the link has room for the address (`intercepted_in_time`). The responses are those that fit the
arrays of the parser, as for `redirects_match`.

`in_aton` is the kernel's, of which only the text of four numbers is needed. The notice that `matchedDns`
sends to other programs is left out.
-/

namespace Netp.Sniff
open Netp.Lib Netp.Parse Netp.Parse.Dns Netp.Shuttle
set_option autoImplicit false

/-- What `matchedDns` writes, with the zero byte of the string. -/
def matchedDns (toa : String) : List UInt8 := bytes ("p " ++ toa) ++ [0]

/-- `in_aton` of a text with four numbers. -/
def ReadsDotted (inAton : List UInt8 → UInt32) : Prop :=
  ∀ addr : List UInt8, addr.length = 4 → inAton (bytes (toa addr)) = UInt32.ofNat (ofLe addr)

/-! ## The text of an address -/

theorem bytes_nat (n : ℕ) : bytes (toString n) = (Nat.toDigits 10 n).map fun c => c.toNat.toUInt8 := by
  rw [bytes, Nat.toString_eq_repr, Nat.toList_repr]

/-- A byte as `%u` prints it. -/
theorem octet_text (n : UInt8) : bytes (toString n.toNat) ≠ [] ∧ (bytes (toString n.toNat)).length ≤ 3 ∧
    ∀ c ∈ bytes (toString n.toNat), isdigit c = true := by
  have hlen : ∀ n < 256, (Nat.toDigits 10 n).length ≤ 3 := by decide +kernel
  rw [bytes_nat]
  refine ⟨repr_ne_nil _, ?_, (toDigits_read _).1⟩
  rw [List.length_map]
  exact hlen _ n.toNat_lt

theorem toa_bytes (addr : List UInt8) : bytes (toa addr) =
    [46].intercalate ((List.range 4).map fun i => bytes (toString (addr.getD i 0).toNat)) := by
  simp [toa, bytes, List.range, List.range.loop]

theorem toa_text (addr : List UInt8) : bytes (toa addr) ≠ [] ∧ (bytes (toa addr)).length ≤ 15 ∧
    ∀ c ∈ bytes (toa addr), isdigit c = true ∨ c = 46 := by
  have hsplit : bytes (toa addr) = bytes (toString (addr.getD 0 0).toNat) ++ 46 ::
      (bytes (toString (addr.getD 1 0).toNat) ++ 46 :: (bytes (toString (addr.getD 2 0).toNat) ++ 46 ::
        bytes (toString (addr.getD 3 0).toNat))) := by
    rw [toa_bytes]
    simp [List.range, List.range.loop]
  obtain ⟨h0, l0, d0⟩ := octet_text (addr.getD 0 0)
  obtain ⟨-, l1, d1⟩ := octet_text (addr.getD 1 0)
  obtain ⟨-, l2, d2⟩ := octet_text (addr.getD 2 0)
  obtain ⟨-, l3, d3⟩ := octet_text (addr.getD 3 0)
  rw [hsplit]
  refine ⟨by simp, ?_, ?_⟩
  · simp only [List.length_append, List.length_cons]
    omega
  · intro c hc
    simp only [List.mem_append, List.mem_cons] at hc
    rcases hc with hc | rfl | hc | rfl | hc | rfl | hc
    · exact .inl (d0 c hc)
    · exact .inr rfl
    · exact .inl (d1 c hc)
    · exact .inr rfl
    · exact .inl (d2 c hc)
    · exact .inr rfl
    · exact .inl (d3 c hc)

/-- The command that is scanned from what `matchedDns` writes. -/
theorem matchedDns_command (addr : List UInt8) : 0 ∈ Kring.Ctrl.clip (matchedDns (toa addr)) ∧
    scanCommand (cstr (Kring.Ctrl.clip (matchedDns (toa addr)))) =
      some (some (.ip (bytes (toa addr)))) := by
  obtain ⟨hne, hlen, hchars⟩ := toa_text addr
  have hbytes : matchedDns (toa addr) = [112] ++ ([32] ++ (bytes (toa addr) ++ [])) ++ [0] := by
    simp [matchedDns, bytes]
  have hclip : Kring.Ctrl.clip (matchedDns (toa addr)) = matchedDns (toa addr) := by
    refine List.take_of_length_le ?_
    rw [hbytes]
    simp only [List.length_append, List.length_cons, List.length_nil]
    have : 19 ≤ Kring.Ctrl.kctrlPlainMaxData := by decide
    omega
  have hspace : ∀ c ∈ bytes (toa addr), kisspace c = false := by
    intro c hc
    rcases hchars c hc with hd | rfl
    · exact (isdigit_byte hd).1
    · decide
  have hnull : ∀ c ∈ [112] ++ ([32] ++ (bytes (toa addr) ++ [])), c ≠ 0 := by
    intro c hc
    simp only [List.append_nil, List.mem_append, List.mem_singleton] at hc
    rcases hc with rfl | rfl | hc
    · decide
    · decide
    · rintro rfl
      exact absurd (hchars 0 hc) (by decide)
  rw [hclip, hbytes]
  refine ⟨List.mem_append_right _ List.mem_cons_self, ?_⟩
  rw [cstr_concat_zero, cstr_eq_self hnull]
  have hgap : ∀ c ∈ ([32] : List UInt8), kisspace c = true := by
    intro c hc
    rw [List.mem_singleton.1 hc]
    decide
  have hprinted : Printed (KringCommand.ip (bytes (toa addr))).args
      ([112] ++ ([32] ++ (bytes (toa addr) ++ []))) :=
    .cons (.char (by decide)) (by decide) hgap (.last (.word hne hspace) (List.forall_mem_nil _))
  refine scanCommand_printed hprinted ?_
  simp [KringCommand.args, Shuttle.Arg.fits]
  omega

/-! ## The addresses that are reported -/

theorem reports_a (rs : List Record) (s : Redirects) : ∀ addr ∈ (rs.foldl Redirects.record s).reports,
    addr ∈ s.reports ∨ ∃ name, Record.a name addr ∈ rs := by
  induction rs generalizing s with
  | nil => exact fun addr h => .inl h
  | cons r rs ih =>
    intro addr h
    rcases ih (s.record r) addr h with hold | ⟨name, hname⟩
    · cases r with
      | a name ip =>
        simp only [Redirects.record] at hold
        split_ifs at hold
        · rcases List.mem_append.1 hold with hold | hold
          · exact .inl hold
          · rw [List.mem_singleton.1 hold]
            exact .inr ⟨name, List.mem_cons_self⟩
        · exact .inl hold
      | cname name target =>
        simp only [Redirects.record] at hold
        split_ifs at hold <;> exact .inl hold
      | _ => exact .inl hold
    · exact .inr ⟨name, List.mem_cons_of_mem _ hname⟩

/-- What is reported is the text of the address of an A record in an answer section. -/
theorem matched_a {hosts : List Text} {responses : List Response} {trees : List (List Dns.TreeCall)}
    (hparsed : List.Forall₂ Response.Parsed responses trees) {v : MatchTree MatchDnsAnswer}
    (hcalls : (configureContext hosts).calls callbacks trees.flatten = some v) {report : String}
    (hreport : report ∈ v.state.matchedDns) :
    ∃ name addr, Record.a name addr ∈ responses.flatMap Response.answers ∧ addr.length = 4 ∧
      report = toa addr := by
  obtain ⟨children, hv⟩ := responses_calls hparsed (v := configureContext hosts) rfl rfl
  obtain rfl := Option.some.inj (hv.symm.trans hcalls)
  have hfine : ∀ r ∈ responses.flatMap Response.answers, Fine r := by
    intro r hr
    obtain ⟨response, -, hmem⟩ := List.mem_flatMap.mp hr
    exact readMany_fine _ _ r hmem
  have hstart : Simulates (configureContext hosts).state ⟨hosts.toFinset, ∅, []⟩ :=
    ⟨fun name => by simp [configureContext, initTree], fun addr _ => by simp [configureContext, initTree], rfl⟩
  have hreports := (hstart.records hfine).reports
  rw [hreports] at hreport
  obtain ⟨addr, haddr, rfl⟩ := List.mem_map.1 hreport
  rcases reports_a _ _ addr haddr with hnone | ⟨name, hname⟩
  · exact absurd hnone List.not_mem_nil
  · exact ⟨name, addr, hname, (hfine _ hname).2, rfl⟩

/-! ## The frames -/

/-- All the responses are parsed. An address that was reported, and whose command was accepted by the ring of
a link: once the link has handled as many frames as the ring holds messages, TLS packets to the address that
come from the inside are freed or given to the host, unless the list of the link is full. -/
theorem intercepted_in_time {Λ : Type} [DecidableEq Λ] {inAton : List UInt8 → UInt32}
    (hinAton : ReadsDotted inAton) {hosts : List Text} {responses : List Response}
    (hfits : ∀ r ∈ responses, r.Fits) {el : Ptr → AvlEl Ptr} {conn : Ptr → Connection}
    {dev : Λ → Dev} {before later : List (Event Λ)} {l : Λ} {w : Kring.Ctrl.WriterId} {report : String}
    {r t u : Links Λ} {os os' : List (Out Λ)} (hterm : ∀ e ∈ before ++ later, e.Terminated)
    (hbefore : (shuttle inAton el conn dev).trace (shuttle inAton el conn dev).init before = some (r, os))
    (hwrite : r.step inAton (.write l w (matchedDns report)) = some (t, .wrote true))
    (hlater : (shuttle inAton el conn dev).trace t later = some (u, os'))
    (hpolls : Kring.Ctrl.kctrlNpages - 1 ≤ t.pollsIn inAton l later) :
    (∀ r ∈ responses, ∃ tree, r.Parsed tree) ∧
    ∀ trees v, List.Forall₂ Response.Parsed responses trees →
      (configureContext hosts).calls callbacks trees.flatten = some v → report ∈ v.state.matchedDns →
      ∃ name addr, Record.a name addr ∈ responses.flatMap Response.answers ∧ report = toa addr ∧
        ((u.link l).ips.length = linkIps ∨
          ∀ port skb cloned x out, u.rxHandlerData port = some l → (u.link l).inside = some port →
            skb.isTcp = true → skb.isTls = true → [skb.ip 16, skb.ip 17, skb.ip 18, skb.ip 19] = addr →
            u.step inAton (.frame port skb cloned) = some (x, out) →
            out = .effects [.kfreeSkb] ∨ out =
              .effects [.kwrite l kdataDirInside skb.bytes, .netifReceiveSkb (u.link l).dev skb.bytes]) := by
  refine ⟨fun r hr => (hfits r hr).parsed, ?_⟩
  intro trees v hparsed hcalls hreport
  obtain ⟨name, addr, hname, hlen, rfl⟩ := matched_a hparsed hcalls hreport
  obtain ⟨hzero, hcmd⟩ := matchedDns_command addr
  have hterm' : ∀ e ∈ before ++ .write l w (matchedDns (toa addr)) :: later, e.Terminated := by
    intro e he
    rcases List.mem_append.1 he with he | he
    · exact hterm e (List.mem_append_left _ he)
    · rcases List.mem_cons.1 he with rfl | he
      · exact hzero
      · exact hterm e (List.mem_append_right _ he)
  obtain ⟨b, hu, hdone⟩ := obeyed_in_time el conn dev hterm' hcmd hbefore hwrite hlater hpolls
  refine ⟨name, addr, hname, rfl, ?_⟩
  have hips := (hu.link l).ips
  have hadded : UInt32.ofNat (ofLe addr) ∈ b.added l := by
    rw [← hinAton addr hlen]
    exact hdone
  by_cases hroom : (b.added l).length < linkIps
  · refine .inr fun port skb cloned x out hhandler hinside htcp htls hdst hstep => ?_
    refine hu.diverted hhandler hinside htcp htls ?_ hstep
    rw [hips, List.take_of_length_le hroom.le]
    have hdaddr : skb.headers.daddr = UInt32.ofNat (ofLe addr) := by
      rw [← hdst]
      rfl
    rw [hdaddr]
    exact hadded
  · refine .inl ?_
    rw [hips, List.length_take]
    omega

/-! ## An instance -/

/-- `in_aton` of a text with four numbers. -/
def inAton (ip : List UInt8) : UInt32 :=
  UInt32.ofNat (ofLe ((ip.splitOn 46).map fun part => (numVal 10 part).toUInt8))

theorem inAton_dotted : ReadsDotted inAton := by
  intro addr hlen
  have hno : ∀ part ∈ (List.range 4).map fun i => bytes (toString (addr.getD i 0).toNat), 46 ∉ part := by
    intro part hpart hdot
    obtain ⟨i, -, rfl⟩ := List.mem_map.1 hpart
    exact absurd ((octet_text _).2.2 46 hdot) (by decide)
  have hread : ∀ n : UInt8, (numVal 10 (bytes (toString n.toNat))).toUInt8 = n := by
    intro n
    rw [bytes_nat, (toDigits_read _).2]
    exact UInt8.ofNat_toNat
  rw [inAton, toa_bytes, List.splitOn_intercalate 46 hno (by simp), List.map_map]
  match addr, hlen with
  | [a, b, c, d], _ =>
    simp only [List.range, List.range.loop, List.map_cons, List.map_nil, Function.comp_apply, hread]
    rfl

theorem oneAnswer_answers : [oneAnswer].flatMap Response.answers = [.a [97] [1, 2, 3, 4]] := by
  have hname : Parts oneAnswer.pkt 12 [[97]] none :=
    .part (c := 1) rfl (by decide) (by decide) (by decide) (.zero rfl)
  have htext : nameText oneAnswer.pkt [] 12 = [97] := Wire.nameText_eq (.zero hname)
  have hread : readRecord oneAnswer.pkt [] 12 =
      some (.a (nameText oneAnswer.pkt [] 12) [1, 2, 3, 4], 29, [12]) := rfl
  have hmessage : (readMessage oneAnswer.pkt oneAnswer.sect).an =
      (readMany (readRecord oneAnswer.pkt) 1 (some (12, []))).1 := rfl
  rw [List.flatMap_cons, List.flatMap_nil, List.append_nil, Response.answers, hmessage, readMany, hread,
    htext]
  rfl

/-- The response with the A record of 1.2.3.4, and one link. -/
theorem intercepted_in_time_one : ∃ trees v r t u os os',
    List.Forall₂ Response.Parsed [oneAnswer] trees ∧
    (configureContext [[97]]).calls callbacks trees.flatten = some v ∧
    "1.2.3.4" ∈ v.state.matchedDns ∧
    (oneLink inAton).trace (oneLink inAton).init onePorts = some (r, os) ∧
    r.step inAton (.write .l0 writer0 (matchedDns "1.2.3.4")) = some (t, .wrote true) ∧
    (oneLink inAton).trace t (List.replicate (Kring.Ctrl.kctrlNpages - 1) (.frame 0 ipv6 true)) =
      some (u, os') ∧
    ∃ name addr, Record.a name addr ∈ [oneAnswer].flatMap Response.answers ∧ "1.2.3.4" = toa addr ∧
      ((u.link .l0).ips.length = linkIps ∨
        ∀ port skb cloned x out, u.rxHandlerData port = some .l0 → (u.link .l0).inside = some port →
          skb.isTcp = true → skb.isTls = true → [skb.ip 16, skb.ip 17, skb.ip 18, skb.ip 19] = addr →
          u.step inAton (.frame port skb cloned) = some (x, out) →
          out = .effects [.kfreeSkb] ∨ out =
            .effects [.kwrite .l0 kdataDirInside skb.bytes, .netifReceiveSkb (u.link .l0).dev skb.bytes]) := by
  have htoa : "1.2.3.4" = toa [1, 2, 3, 4] := rfl
  obtain ⟨hzero, hcmd⟩ := matchedDns_command [1, 2, 3, 4]
  rw [← htoa] at hzero hcmd
  have hfits : ∀ r ∈ [oneAnswer], r.Fits := fun _ hr => List.mem_singleton.mp hr ▸ oneAnswer_fits
  obtain ⟨tree, htree⟩ := oneAnswer_fits.parsed
  have htrees : List.Forall₂ Response.Parsed [oneAnswer] [tree] := .cons htree .nil
  obtain ⟨children, hcalls⟩ := responses_calls htrees (v := configureContext [[97]]) rfl rfl
  have hreport : "1.2.3.4" ∈ (([oneAnswer].flatMap Response.answers).foldl record
      (configureContext [[97]]).state).matchedDns := by
    rw [oneAnswer_answers, htoa]
    decide
  obtain ⟨r, t, u, os, os', hr, ht, hu, hpolls⟩ := oneLink_frames inAton hzero hcmd
  refine ⟨[tree], _, r, t, u, os, os', htrees, hcalls, hreport, hr, ht, hu, ?_⟩
  refine (intercepted_in_time inAton_dotted hfits ?_ hr ht hu hpolls.ge).2 _ _ htrees hcalls hreport
  simp only [onePorts, List.mem_append, List.mem_cons, List.not_mem_nil, or_false, List.mem_replicate]
  rintro e ((rfl | rfl) | ⟨-, rfl⟩) <;> trivial

end Netp.Sniff
