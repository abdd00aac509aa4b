import Netp.Tlsproxy.Session

/-! # The steps of the data in a session

What a visit to an established half and the rounds of the two loops leave of the halves (`moved_step`),
and what the response to the browser comes to while there is nothing else for it (`Response`).
-/

namespace Netp.Tlsproxy.Setup
open Netp.Lib Netp.Genf Netp.Genf.Life
set_option autoImplicit false

/-! ## What a step can do -/

section Data
variable {blocklen : ℕ} {p p' : Proxy blocklen}

/-- What a visit to an established half, or a round of a loop, can do. -/
structure Moved (p p' : Proxy blocklen) : Prop where
  established : ∀ h, (p'.desc h).established = (p.desc h).established
  closed : ∀ h, (p.desc h).closed = true → (p'.desc h).closed = true
  accepted : ∀ h, (∀ f, p.pc ≠ .writing h f) → (p'.desc h).accepted = (p.desc h).accepted
  grown : ∀ h, (p.desc h).accepted <+: (p'.desc h).accepted
  wbList : ∀ h, (∀ f, p.pc ≠ .writing h f) → p.pc ≠ .reading h.other →
    (p'.desc h).wbList = (p.desc h).wbList
  reading : ∀ r, p'.pc = .reading r → p.pc = .reading r ∨ p.pc = .writing r.other true ∨
    (p.desc r).established = true
  writing : ∀ w f, p'.pc = .writing w f → p.pc = .writing w f ∨
    (p.desc w).established = true ∧ (f = true → p.pc = .reading w.other)

theorem other_other (h : Half) : h.other.other = h := by cases h <;> rfl

theorem Moved.refl (p : Proxy blocklen) : Moved p p where
  established _ := rfl
  closed _ := id
  accepted _ _ := rfl
  grown _ := List.prefix_rfl
  wbList _ _ _ := rfl
  reading _ h := .inl h
  writing _ _ h := .inl h

theorem set_desc (p : Proxy blocklen) (h k : Half) (d : FdDesc blocklen) :
    (p.set h d).desc k = if k = h then d else p.desc k := Function.update_apply _ _ _ _

theorem set_set (p : Proxy blocklen) (h : Half) (d d' : FdDesc blocklen) :
    (p.set h d).set h d' = p.set h d' := by
  simp [Proxy.set]

/-- The blocks of a half may change, its other fields but for two flags do not. -/
structure SameBut (d d' : FdDesc blocklen) : Prop where
  established : d'.established = d.established
  closed : d'.closed = d.closed
  accepted : d'.accepted = d.accepted

theorem readIn_same (d : FdDesc blocklen) (bs : List UInt8) : SameBut d (d.readIn bs) := by
  unfold FdDesc.readIn
  split
  · exact ⟨rfl, rfl, rfl⟩
  · exact ⟨rfl, rfl, rfl⟩

theorem consume_same (d : FdDesc blocklen) (n : ℕ) : SameBut d (d.consume n) := by
  unfold FdDesc.consume
  split
  · exact ⟨rfl, rfl, rfl⟩
  · split
    · exact ⟨rfl, rfl, rfl⟩
    · exact ⟨rfl, rfl, rfl⟩

/-- What a shutdown leaves of a half. -/
theorem proxyShutdown_desc (p : Proxy blocklen) (h k : Half) :
    ((proxyShutdown h p).desc k).established = (p.desc k).established ∧
      ((proxyShutdown h p).desc k).closed = true ∧
      ((proxyShutdown h p).desc k).accepted = (p.desc k).accepted ∧
      ((proxyShutdown h p).desc k).wbList = (p.desc k).wbList := by
  cases h <;> cases k <;> exact ⟨rfl, rfl, rfl, rfl⟩

theorem writeReturns_desc (p : Proxy blocklen) (w : Half) (f : Bool) :
    (writeReturns w f p).desc = p.desc := rfl

theorem writeReturns_pc (p : Proxy blocklen) (w : Half) (f : Bool) :
    (writeReturns w f p).pc = .idle ∨ f = true ∧ (writeReturns w f p).pc = .reading w.other := by
  unfold writeReturns
  by_cases hc : f = true ∧ (p.desc w.other).closed = false
  · exact .inr ⟨hc.1, if_pos hc⟩
  · exact .inl (if_neg hc)

/-- `Moved`, where only the fields of one half change and the position is another. -/
theorem moved_set {d : FdDesc blocklen} {h : Half} (hest : d.established = (p.desc h).established)
    (hclosed : (p.desc h).closed = true → d.closed = true)
    (hacc : (∀ f, p.pc ≠ .writing h f) → d.accepted = (p.desc h).accepted)
    (hgrown : (p.desc h).accepted <+: d.accepted)
    (hwb : (∀ f, p.pc ≠ .writing h f) → p.pc ≠ .reading h.other → d.wbList = (p.desc h).wbList)
    (hdesc : p'.desc = (p.set h d).desc)
    (hreading : ∀ r, p'.pc = .reading r → p.pc = .reading r ∨ p.pc = .writing r.other true ∨
      (p.desc r).established = true)
    (hwriting : ∀ w f, p'.pc = .writing w f → p.pc = .writing w f ∨
      (p.desc w).established = true ∧ (f = true → p.pc = .reading w.other)) : Moved p p' := by
  have hat : ∀ k, p'.desc k = if k = h then d else p.desc k := by
    intro k
    rw [hdesc, set_desc]
  refine ⟨fun k => ?_, fun k => ?_, fun k => ?_, fun k => ?_, fun k => ?_, hreading, hwriting⟩ <;>
  · rw [hat k]
    split
    · rename_i hk
      subst hk
      assumption
    · first
      | rfl
      | exact id
      | exact fun _ => rfl
      | exact List.prefix_rfl
      | exact fun _ _ => rfl

theorem moved_shutdown {h : Half} (q : Proxy blocklen)
    (hsame : ∀ k, SameBut (p.desc k) (q.desc k))
    (hwb : ∀ k, (∀ f, p.pc ≠ .writing k f) → p.pc ≠ .reading k.other →
      (q.desc k).wbList = (p.desc k).wbList)
    (hdesc : p'.desc = (proxyShutdown h q).desc)
    (hreading : ∀ r, p'.pc = .reading r → p.pc = .reading r ∨ p.pc = .writing r.other true ∨
      (p.desc r).established = true)
    (hwriting : ∀ w f, p'.pc = .writing w f → p.pc = .writing w f ∨
      (p.desc w).established = true ∧ (f = true → p.pc = .reading w.other)) : Moved p p' := by
  refine ⟨fun k => ?_, fun k _ => ?_, fun k _ => ?_, fun k => ?_, fun k hw hr => ?_, hreading,
    hwriting⟩ <;>
  · rw [hdesc]
    obtain ⟨hest, hclosed, hacc, hlist⟩ := proxyShutdown_desc q h k
    first
    | exact hest.trans (hsame k).established
    | exact hclosed
    | exact hacc.trans (hsame k).accepted
    | exact hlist.trans (hwb k hw hr)
    | exact (hacc.trans (hsame k).accepted) ▸ List.prefix_rfl

theorem moved_writeRound {w : Half} {f : Bool} (hpc : p.pc = .writing w f) (res : WriteRes) :
    Moved p (writeRound w f res p) := by
  have hreturns : ∀ q : Proxy blocklen, (∀ r, (writeReturns w f q).pc = .reading r →
      p.pc = .reading r ∨ p.pc = .writing r.other true ∨ (p.desc r).established = true) ∧
      ∀ w' f', (writeReturns w f q).pc = .writing w' f' → p.pc = .writing w' f' ∨
        (p.desc w').established = true ∧ (f' = true → p.pc = .reading w'.other) := by
    intro q
    constructor
    · intro r hr
      rcases writeReturns_pc q w f with hidle | ⟨rfl, hread⟩
      · rw [hidle] at hr
        cases hr
      · rw [hread] at hr
        cases hr
        exact .inr (.inl (by rw [other_other, hpc]))
    · intro w' f' hw
      rcases writeReturns_pc q w f with hidle | ⟨-, hread⟩
      · rw [hidle] at hw
        cases hw
      · rw [hread] at hw
        cases hw
  have hflag : ∀ v, Moved p (writeReturns w f (p.set w { p.desc w with tlsWantWrite := v })) :=
    fun v => moved_set (h := w) (d := { p.desc w with tlsWantWrite := v }) rfl id (fun _ => rfl)
      List.prefix_rfl (fun _ _ => rfl) rfl (hreturns _).1 (hreturns _).2
  unfold writeRound
  dsimp only
  split
  · exact hflag false
  · cases res with
    | error =>
      exact moved_shutdown p (fun k => ⟨rfl, rfl, rfl⟩) (fun _ _ _ => rfl)
        (writeReturns_desc _ _ _) (hreturns _).1 (hreturns _).2
    | wrote k =>
      dsimp only
      split
      · exact hflag true
      · obtain ⟨hest, hclosed, hacc⟩ := consume_same { p.desc w with
          accepted := (p.desc w).accepted ++ (p.desc w).writeFrom.take (min k (p.desc w).writeAvail)
          decrypted := (p.desc w).decrypted ++ (p.desc w).writeFrom.take (min k (p.desc w).writeAvail) }
          (min k (p.desc w).writeAvail)
        refine moved_set (h := w) hest (fun hc => hclosed.trans hc) (fun hno => absurd hpc (hno f)) ?_
          (fun hno _ => absurd hpc (hno f)) rfl (fun r hr => .inl hr) (fun w' f' hw => .inl hw)
        rw [hacc]
        exact List.prefix_append _ _

theorem moved_readRound {r : Half} (hpc : p.pc = .reading r) (res : ReadRes) :
    Moved p (readRound r res p) := by
  have hback : p.pc = .reading r.other.other := by rw [other_other, hpc]
  unfold readRound
  dsimp only
  generalize hd : (if (p.desc r.other).readAvail = 0 then (p.desc r.other).addSpace
    else p.desc r.other) = d
  have hsame : SameBut (p.desc r.other) d := by
    rw [← hd]
    split <;> exact ⟨rfl, rfl, rfl⟩
  cases res with
  | error =>
    refine moved_shutdown (p.set r.other d) (fun k => ?_) (fun k _ hk => ?_) rfl nofun nofun
    · rw [set_desc]
      split
      · rename_i hk
        subst hk
        exact hsame
      · exact ⟨rfl, rfl, rfl⟩
    · rw [set_desc, if_neg]
      rintro rfl
      exact hk hback
  | read bs =>
    dsimp only
    split
    · exact moved_set hsame.established (fun hc => hsame.closed.trans hc) (fun _ => hsame.accepted)
        (hsame.accepted ▸ List.prefix_rfl) (fun _ hno => absurd hback hno) rfl nofun nofun
    · generalize bs.take d.readAvail = bs
      obtain ⟨hest, hclosed, hacc⟩ := readIn_same { d with input := d.input ++ bs } bs
      rw [set_set]
      unfold proxyWrite
      split
      · rename_i hwest
        rw [set_desc, if_pos rfl, hest, hsame.established] at hwest
        refine moved_set (h := r.other) (hest.trans hsame.established)
          (fun hc => hclosed.trans (hsame.closed.trans hc)) (fun _ => hacc.trans hsame.accepted)
          (hacc.trans hsame.accepted ▸ List.prefix_rfl) (fun _ hno => absurd hback hno) rfl nofun ?_
        rintro w f ⟨⟩
        exact .inr ⟨hwest, fun _ => hback⟩
      · rw [set_set, set_desc, if_pos rfl]
        refine moved_set (h := r.other) (d := {
            FdDesc.readIn { d with input := d.input ++ bs } bs with tlsWantWrite := true })
          (hest.trans hsame.established)
          (fun hc => hclosed.trans (hsame.closed.trans hc)) (fun _ => hacc.trans hsame.accepted)
          (hacc.trans hsame.accepted ▸ List.prefix_rfl) (fun _ hno => absurd hback hno)
          (writeReturns_desc _ _ _) (fun r' hr => ?_) (fun w f hw => ?_)
        · rcases writeReturns_pc _ r.other true with hidle | ⟨-, hread⟩
          · rw [hidle] at hr
            cases hr
          · rw [hread, other_other] at hr
            cases hr
            exact .inl hpc
        · rcases writeReturns_pc _ r.other true with hidle | ⟨-, hread⟩
          · rw [hidle] at hw
            cases hw
          · rw [hread] at hw
            cases hw

/-- A step of the data machine, but for the one that says that a half is established. -/
theorem moved_step {a : Tlsproxy.Act} (ha : ∀ h, a ≠ .established h)
    (hs : Tlsproxy.step p a = some p') : Moved p p' := by
  have hm := Moved.refl p
  unfold Tlsproxy.step at hs
  split at hs
  · exact absurd rfl (ha _)
  · split at hs
    · rename_i hr
      cases hs
      refine ⟨hm.established, hm.closed, hm.accepted, hm.grown, hm.wbList, ?_, nofun⟩
      rintro r ⟨⟩
      exact .inr (.inr hr.1)
    · cases hs
  · split at hs
    · rename_i hw
      cases hs
      unfold proxyWrite
      rw [if_pos hw.1]
      refine ⟨hm.established, hm.closed, hm.accepted, hm.grown, hm.wbList, nofun, ?_⟩
      rintro w f ⟨⟩
      exact .inr ⟨hw.1, nofun⟩
    · cases hs
  · rename_i hpc
    cases hs
    exact moved_readRound hpc _
  · rename_i hpc
    cases hs
    exact moved_writeRound hpc _
  · cases hs

/-! ## The response -/

/-- A half that has got nothing but a beginning of the response, and holds nothing but the rest. -/
def Response (d : FdDesc blocklen) : Prop :=
  (d.wbList = [] ∧ d.accepted <+: verifyResponse) ∨
    ∃ b, d.wbList = [b] ∧ b.data <+: verifyResponse ∧ d.accepted = b.data.take b.head

theorem Response.of_eq {d d' : FdDesc blocklen} (h : Response d) (hw : d'.wbList = d.wbList)
    (ha : d'.accepted = d.accepted) : Response d' := by
  unfold Response at *
  rwa [hw, ha]

theorem Response.accepted {d : FdDesc blocklen} (h : Response d) : d.accepted <+: verifyResponse := by
  obtain ⟨-, h⟩ | ⟨b, -, hdata, ha⟩ := h
  · exact h
  · rw [ha]
    exact (List.take_prefix _ _).trans hdata

theorem response_queued {d : FdDesc blocklen} (hw : d.wbList = []) (ha : d.accepted = []) :
    Response (d.addSpace.readIn verifyResponse) := by
  right
  refine ⟨WriteBlock.new.fill verifyResponse, ?_, ?_, ?_⟩
  · simp [FdDesc.addSpace, FdDesc.readIn, hw]
  · simp only [WriteBlock.fill, WriteBlock.new, List.nil_append]
    exact List.take_prefix _ _
  · have hsame := (readIn_same d.addSpace verifyResponse).accepted
    rw [hsame]
    simpa [WriteBlock.fill, WriteBlock.new, FdDesc.addSpace] using ha

/-- A write goes on in the response. -/
theorem response_written {d : FdDesc blocklen} (h : Response d) {n : ℕ} (hn : n ≤ d.writeAvail)
    (hpos : n ≠ 0) (e : List UInt8) : Response (FdDesc.consume { d with
      accepted := d.accepted ++ d.writeFrom.take n, decrypted := e } n) := by
  obtain ⟨hw, -⟩ | ⟨b, hw, hdata, ha⟩ := h
  · simp only [FdDesc.writeAvail, hw] at hn
    omega
  · have hfrom : d.writeFrom = b.data.drop b.head := by simp [FdDesc.writeFrom, hw]
    have hacc : d.accepted ++ d.writeFrom.take n = b.data.take (b.head + n) := by
      rw [ha, hfrom, List.take_add]
    rw [hacc]
    unfold FdDesc.consume
    dsimp only
    rw [hw]
    dsimp only
    split
    · left
      exact ⟨rfl, (List.take_prefix _ _).trans hdata⟩
    · right
      exact ⟨_, rfl, hdata, rfl⟩

theorem response_writeRound {f : Bool} (res : WriteRes) (h : Response (p.desc .server)) :
    Response ((writeRound .server f res p).desc .server) := by
  unfold writeRound
  dsimp only
  split
  · exact h.of_eq rfl rfl
  · cases res with
    | error =>
      obtain ⟨-, -, ha, hw⟩ := proxyShutdown_desc p .server .server
      exact h.of_eq hw ha
    | wrote k =>
      dsimp only
      split
      · exact h.of_eq rfl rfl
      · rename_i hpos
        exact response_written h (Nat.min_le_right _ _) hpos _

/-- Nothing is written where there is nothing. -/
theorem writeRound_empty {w : Half} {f : Bool} (res : WriteRes) (h : (p.desc w).wbList = []) :
    ((writeRound w f res p).desc w).accepted = (p.desc w).accepted ∧
      ((writeRound w f res p).desc w).wbList = [] := by
  have hlen : (p.desc w).writeAvail = 0 := by simp [FdDesc.writeAvail, h]
  unfold writeRound
  dsimp only
  rw [if_pos hlen, writeReturns_desc, set_desc, if_pos rfl]
  exact ⟨rfl, h⟩

/-- What every round keeps is kept by all of them. -/
theorem writeRounds_keep {Q : Proxy blocklen → Prop} (results : List WriteRes)
    (hround : ∀ p res, p.pc = .writing .server false → Q p → Q (writeRound .server false res p))
    (h : Q p) : Q (writeRounds results p) := by
  induction results generalizing p with
  | nil =>
    unfold writeRounds
    split
    · rename_i hpc
      exact hround p _ hpc h
    · exact h
  | cons res results ih =>
    unfold writeRounds
    split
    · rename_i hpc
      exact ih (hround p res hpc h)
    · exact h

theorem writeRound_pc {res : WriteRes} (hpc : p.pc = .writing .server false) :
    (writeRound .server false res p).pc = .idle ∨
      (writeRound .server false res p).pc = .writing .server false := by
  have hidle : ∀ q : Proxy blocklen, (writeReturns .server false q).pc = .idle := by
    intro q
    rcases writeReturns_pc q .server false with h | h
    · exact h
    · cases h.1
  unfold writeRound
  dsimp only
  split
  · exact .inl (hidle _)
  · cases res with
    | error => exact .inl (hidle _)
    | wrote k =>
      dsimp only
      split
      · exact .inl (hidle _)
      · exact .inr hpc

end Data

end Netp.Tlsproxy.Setup
