import Netp.Lib.Follow
import Netp.Parse.Dns

/-! # What names stand for, and when `copyName` returns

A name in the packet is a list of parts that ends in a zero or in a pointer. `copyName` goes on at a
pointer whose offset is registered, so what it does is a chain of names: `hop` leads from one to the
next. The chain is what decides whether the loop ends, and `Expands` is what it writes.
-/

namespace Netp.Parse.Dns
open Netp.Lib
set_option autoImplicit false
variable {pkt : Packet} {names : List ℕ} {p q s start next off k m n : ℕ} {stop : Option ℕ}
  {ps ls : List (List UInt8)} {part nb nb' : List UInt8} {c d : UInt8} {l cs : List UInt8}

/-! ## The parts of a name -/

/-- The name at a position: its parts, and the offset of the pointer it ends in. -/
inductive Parts (pkt : Packet) : ℕ → List (List UInt8) → Option ℕ → Prop
  | zero {q : ℕ} (h : pkt[q]? = some 0) : Parts pkt q [] none
  | pointer {q : ℕ} {c d : UInt8} (hc : pkt[q]? = some c) (hp : 192 ≤ c)
      (hd : pkt[q + 1]? = some d) : Parts pkt q [] (some (offset c d))
  | part {q : ℕ} {c : UInt8} {ps : List (List UInt8)} {stop : Option ℕ} (hc : pkt[q]? = some c)
      (h0 : c ≠ 0) (h63 : c ≤ 63) (hin : q + 1 + c.toNat ≤ pkt.length)
      (rest : Parts pkt (q + 1 + c.toNat) ps stop) :
      Parts pkt q ((pkt.drop (q + 1)).take c.toNat :: ps) stop

/-- The pointer at the end of a name, `k` octets before the next length. -/
def endPointer : ℕ → List UInt8 → Option ℕ
  | _, [] => none
  | k + 1, _ :: cs => endPointer k cs
  | 0, c :: cs =>
      if c = 0 then none
      else if c ≤ 63 then endPointer c.toNat cs
      else if 192 ≤ c then cs.head?.map (offset c)
      else none

/-- From a name to the name its pointer leads to, where that is registered. -/
def hop (pkt : Packet) (names : List ℕ) (q : ℕ) : Option ℕ :=
  (endPointer 0 (pkt.drop q)).filter (· ∈ names)

theorem drop_cons (h : c :: cs = pkt.drop p) : pkt[p]? = some c ∧ cs = pkt.drop (p + 1) := by
  have hp : pkt[p]? = some c := by
    have := congrArg (·[0]?) h
    simpa [List.getElem?_drop] using this.symm
  exact ⟨hp, by rw [← List.drop_drop, ← h]; rfl⟩

theorem drop_of_get (h : pkt[p]? = some c) : pkt.drop p = c :: pkt.drop (p + 1) := by
  obtain ⟨hp, hc⟩ := List.getElem?_eq_some_iff.mp h
  rw [← hc, List.drop_eq_getElem_cons hp]

theorem registered_skip : ∀ (l : List UInt8) (k s : ℕ),
    registered s k l = registered (s + k) 0 (l.drop k)
  | l, 0, s => by simp
  | [], k + 1, s => by simp [registered]
  | c :: cs, k + 1, s => by
      rw [registered, registered_skip cs k]
      simp [Nat.add_comm, Nat.add_left_comm]

theorem endPointer_skip : ∀ (l : List UInt8) (k : ℕ), endPointer k l = endPointer 0 (l.drop k)
  | l, 0 => by simp
  | [], k + 1 => by simp [endPointer]
  | c :: cs, k + 1 => by
      rw [endPointer, endPointer_skip cs k]
      simp

theorem Parts.of_name (l : List UInt8) : ∀ {p k : ℕ}, l = pkt.drop p → name p k l = .final next →
    p + k ≤ pkt.length ∧ ∃ ps stop, Parts pkt (p + k) ps stop := by
  induction l with
  | nil => intro p k _ h; cases k <;> simp [name] at h
  | cons c cs ih =>
      intro p k hl h
      obtain ⟨hc, hcs⟩ := drop_cons hl
      have hp : p < pkt.length := (List.getElem?_eq_some_iff.mp hc).1
      cases k with
      | succ k =>
          obtain ⟨hle, ps, stop, hps⟩ := ih hcs h
          rw [show p + 1 + k = p + (k + 1) from by omega] at hle hps
          exact ⟨hle, ps, stop, hps⟩
      | zero =>
          refine ⟨by omega, ?_⟩
          rw [name] at h
          split_ifs at h with h0 h63 hp hnil
          · exact ⟨_, _, .zero (h0 ▸ hc)⟩
          · obtain ⟨hle, ps, stop, hps⟩ := ih hcs h
            exact ⟨_, _, .part hc h0 h63 hle hps⟩
          · obtain ⟨d, ds, rfl⟩ := List.exists_cons_of_ne_nil hnil
            exact ⟨_, _, .pointer hc hp (drop_cons hcs).1⟩

theorem Parts.lt (h : Parts pkt q ps stop) : q < pkt.length := by
  cases h with
  | zero h => exact (List.getElem?_eq_some_iff.mp h).1
  | pointer hc => exact (List.getElem?_eq_some_iff.mp hc).1
  | part hc => exact (List.getElem?_eq_some_iff.mp hc).1

theorem not_le_63 (h : 192 ≤ c) : ¬ c ≤ 63 := by
  simp only [UInt8.le_iff_toNat_le] at *
  change 192 ≤ c.toNat at h
  change ¬ c.toNat ≤ 63
  omega

theorem ne_zero (h : 192 ≤ c) : c ≠ 0 := by
  rintro rfl
  exact absurd h (by decide)

theorem Parts.endPointer (h : Parts pkt q ps stop) : endPointer 0 (pkt.drop q) = stop := by
  induction h with
  | zero h => rw [drop_of_get h]; simp [Dns.endPointer]
  | pointer hc hp hd =>
      rw [drop_of_get hc, drop_of_get hd]
      simp [Dns.endPointer, not_le_63 hp, ne_zero hp, hp]
  | part hc h0 h63 _ _ ih =>
      rw [drop_of_get hc, Dns.endPointer, if_neg h0, if_pos h63, endPointer_skip, List.drop_drop]
      exact ih

theorem Parts.hop (h : Parts pkt q ps stop) : hop pkt names q = stop.filter (· ∈ names) := by
  rw [Dns.hop, h.endPointer]

/-- A label that was registered has at least one part. -/
def Label (pkt : Packet) (q : ℕ) : Prop := ∃ part ps stop, Parts pkt q (part :: ps) stop

theorem Parts.registered (h : Parts pkt q ps stop) :
    (registered q 0 (pkt.drop q)).length = ps.length ∧
      ∀ s ∈ Dns.registered q 0 (pkt.drop q), Label pkt s := by
  induction h with
  | zero h => rw [drop_of_get h]; simp [Dns.registered]
  | pointer hc hp hd =>
      have h63 := not_le_63 hp
      rw [drop_of_get hc]
      simp [Dns.registered, UInt8.not_le.mp h63]
  | @part _ c _ _ hc h0 h63 hin rest ih =>
      have hlow : ¬ (c < 1 ∨ 63 < c) := not_or.mpr
        ⟨fun h => h0 (UInt8.lt_one_iff.mp h), UInt8.not_lt.mpr h63⟩
      rw [drop_of_get hc, Dns.registered, if_neg hlow, registered_skip, List.drop_drop]
      refine ⟨congrArg (· + 1) ih.1, fun s hs => ?_⟩
      rcases List.mem_cons.mp hs with rfl | hs
      · exact ⟨_, _, _, .part hc h0 h63 hin rest⟩
      · exact ih.2 s hs

/-- A position where a name was scanned, or the rest of one. -/
def Scanned (pkt : Packet) (q : ℕ) : Prop := ∃ ps stop, Parts pkt q ps stop

theorem Label.scanned (h : Label pkt q) : Scanned pkt q := by
  obtain ⟨part, ps, stop, h⟩ := h
  exact ⟨_, _, h⟩

/-! ## The loop of `copyName`, one turn -/

/-- The name buffer with one more part. -/
def joinPart (nb part : List UInt8) : List UInt8 := (if nb = [] then nb else nb ++ [46]) ++ part

theorem Parts.turn_zero (h : Parts pkt q [] none) : copyTurn pkt names q nb = .ret 0 (nb ++ [0]) := by
  cases h with
  | zero h => simp [copyTurn, h]

theorem Parts.turn_pointer (h : Parts pkt q [] (some off)) : copyTurn pkt names q nb =
    if off ∈ names then .next off nb else .ret (-1) (0 :: nb.drop 1) := by
  cases h with
  | pointer hc hp hd => simp [copyTurn, hc, hd, not_le_63 hp, ne_zero hp, hp]

theorem Parts.turn_part (h : Parts pkt q (part :: ps) stop) : part ≠ [] ∧ ∃ q', Parts pkt q' ps stop ∧
    ∀ names nb, copyTurn pkt names q nb = .next q' (joinPart nb part) := by
  cases h with
  | @part _ c _ _ hc h0 h63 hin rest =>
      have hlen : ((pkt.drop (q + 1)).take c.toNat).length = c.toNat := by
        rw [List.length_take, List.length_drop]
        omega
      have hpos : 0 < c.toNat := Nat.pos_of_ne_zero fun h => h0 (UInt8.toNat_inj.mp h)
      refine ⟨fun h => by simp [h] at hlen; omega, _, rest, fun names nb => ?_⟩
      simp only [copyTurn, hc, if_neg h0, if_pos h63, hlen, lt_irrefl, if_false]
      rfl

/-- Where a turn goes on. What is in the buffer does not matter. -/
def move (pkt : Packet) (names : List ℕ) (p : ℕ) : Option ℕ :=
  match copyTurn pkt names p [] with
  | .next p' _ => some p'
  | _ => none

/-- The registered positions are labels. -/
def Known (pkt : Packet) (names : List ℕ) : Prop := ∀ q ∈ names, Label pkt q

theorem Scanned.turn (hk : Known pkt names) (h : Scanned pkt p) :
    (∃ p', move pkt names p = some p' ∧ Scanned pkt p' ∧
      ∀ nb, ∃ nb', copyTurn pkt names p nb = .next p' nb') ∨
    (move pkt names p = none ∧ ∀ nb, ∃ r nb', copyTurn pkt names p nb = .ret r nb') := by
  obtain ⟨ps, stop, h⟩ := h
  cases ps with
  | cons part ps =>
      obtain ⟨-, q', hq, hturn⟩ := h.turn_part
      exact .inl ⟨q', by simp [move, hturn], ⟨_, _, hq⟩, fun nb => ⟨_, hturn names nb⟩⟩
  | nil =>
      cases stop with
      | none => exact .inr ⟨by simp [move, h.turn_zero], fun nb => ⟨_, _, h.turn_zero⟩⟩
      | some off =>
          by_cases hoff : off ∈ names
          · have hturn (nb) : copyTurn pkt names p nb = .next off nb := by
              rw [h.turn_pointer, if_pos hoff]
            exact .inl ⟨off, by simp [move, hturn], (hk off hoff).scanned, fun nb => ⟨_, hturn nb⟩⟩
          · have hturn (nb) : copyTurn pkt names p nb = .ret (-1) (0 :: nb.drop 1) := by
              rw [h.turn_pointer, if_neg hoff]
            exact .inr ⟨by simp [move, hturn], fun nb => ⟨_, _, hturn nb⟩⟩

/-! ## A whole call -/

/-- The call has come past a position. -/
def Visits (pkt : Packet) (names : List ℕ) (start n p : ℕ) : Prop :=
  ∃ nb, copyName pkt names start n = .next p nb

def Returns (pkt : Packet) (names : List ℕ) (start : ℕ) : Prop :=
  ∃ n r nb, copyName pkt names start n = .ret r nb

theorem copyName_stays (h : ¬ ∃ p, Visits pkt names start n p) (k : ℕ) :
    copyName pkt names start (n + k) = copyName pkt names start n := by
  induction k with
  | zero => rfl
  | succ k ih =>
      rw [← Nat.add_assoc, copyName, ih]
      split
      · next p nb hn => exact absurd ⟨p, nb, hn⟩ h
      · rfl

/-- After `n` turns the call is where the chain is, or has returned. -/
theorem copyName_follow (hk : Known pkt names) (hs : Scanned pkt start) (n : ℕ) :
    (∃ p nb, copyName pkt names start n = .next p nb ∧ follow (move pkt names) n start = some p ∧
      Scanned pkt p) ∨
    (∃ r nb, copyName pkt names start n = .ret r nb ∧ follow (move pkt names) n start = none) := by
  induction n with
  | zero => exact .inl ⟨start, [], rfl, rfl, hs⟩
  | succ n ih =>
      simp only [copyName, follow]
      obtain ⟨p, nb, hn, hf, hp⟩ | ⟨r, nb, hn, hf⟩ := ih
      · simp only [hn, hf, Option.bind_some]
        obtain ⟨p', hm, hp', ht⟩ | ⟨hm, ht⟩ := hp.turn hk
        · obtain ⟨nb', ht⟩ := ht nb
          exact .inl ⟨p', nb', ht, hm, hp'⟩
        · obtain ⟨r, nb', ht⟩ := ht nb
          exact .inr ⟨r, nb', ht, hm⟩
      · simp [hn, hf]

theorem visits_iff (hk : Known pkt names) (hs : Scanned pkt start) :
    Visits pkt names start n p ↔ follow (move pkt names) n start = some p := by
  obtain ⟨p', nb, hn, hf, -⟩ | ⟨r, nb, hn, hf⟩ := copyName_follow hk hs n
  · simp [Visits, hn, hf]
  · simp [Visits, hn, hf]

theorem returns_iff_ends (hk : Known pkt names) (hs : Scanned pkt start) :
    Returns pkt names start ↔ Ends (move pkt names) start := by
  constructor
  · rintro ⟨n, r, nb, hn⟩
    obtain ⟨p, nb', hn', -, -⟩ | ⟨-, -, -, hf⟩ := copyName_follow hk hs n
    · simp [hn] at hn'
    · exact ⟨n, hf⟩
  · rintro ⟨n, hf⟩
    obtain ⟨p, nb, -, hf', -⟩ | ⟨r, nb, hn, -⟩ := copyName_follow hk hs n
    · simp [hf] at hf'
    · exact ⟨n, r, nb, hn⟩

theorem returns_iff_noRepeat (hk : Known pkt names) (hs : Scanned pkt start) :
    Returns pkt names start ↔ NoRepeat (move pkt names) start := by
  rw [returns_iff_ends hk hs]
  apply ends_iff_noRepeat (Set.finite_lt_nat pkt.length)
  intro n p hf
  obtain ⟨nb, hn⟩ := (visits_iff hk hs).mpr hf
  obtain ⟨p', nb', hn', -, ps, stop, hp⟩ | ⟨r, nb', hn', -⟩ := copyName_follow hk hs n
  · rw [hn] at hn'
    cases hn'
    exact hp.lt
  · simp [hn] at hn'

/-! ## From name to name -/

theorem Parts.follow_move (h : Parts pkt q ps stop) :
    follow (move pkt names) (ps.length + 1) q = Dns.hop pkt names q := by
  induction ps generalizing q with
  | nil =>
      rw [h.hop]
      cases stop with
      | none => simp [follow, move, h.turn_zero]
      | some off =>
          by_cases hoff : off ∈ names <;>
            simp [follow, move, h.turn_pointer, hoff, Option.filter]
  | cons part ps ih =>
      obtain ⟨-, q', hq, hturn⟩ := h.turn_part
      have hmove : move pkt names q = some q' := by simp [move, hturn]
      rw [List.length_cons, follow_one_add, hmove, Option.bind_some, ih hq, h.hop, hq.hop]

theorem hop_mem (h : hop pkt names p = some q) : q ∈ names := by
  obtain ⟨-, hq⟩ := Option.filter_eq_some_iff.mp h
  simpa using hq

theorem returns_iff_ends_hop (hk : Known pkt names) (hs : Scanned pkt start) :
    Returns pkt names start ↔ Ends (hop pkt names) start := by
  rw [returns_iff_ends hk hs]
  refine ends_iff_ends (P := Scanned pkt) ?_ ?_ hs
  · rintro q ⟨ps, stop, hq⟩
    exact ⟨_, hq.follow_move⟩
  · intro p q _ hq
    exact (hk q (hop_mem hq)).scanned

/-- A call returns exactly when the chain of names comes to no label twice. -/
theorem returns_iff_hops (hk : Known pkt names) (hs : Scanned pkt start) :
    Returns pkt names start ↔ NoRepeat (hop pkt names) start := by
  rw [returns_iff_ends_hop hk hs]
  apply ends_iff_noRepeat (S := {p | p ∈ start :: names}) (List.finite_toSet _)
  intro n p hf
  cases n with
  | zero =>
      cases hf
      simp
  | succ n =>
      obtain ⟨q, -, hq⟩ := Option.bind_eq_some_iff.mp hf
      exact List.mem_cons_of_mem _ (hop_mem hq)

end Netp.Parse.Dns
