import Netp.Parse.DnsRun

/-! # What `copyName` writes, and the bounds of the DNS parser

`Expands` is what a name stands for: its parts and those of the names its pointers lead to, up to the
zero or to a pointer that leads nowhere. A call writes just that. Nothing bounds the number of labels
of a packet or the length of a name that pointers put together, so that the parser stays in its bounds
only on some packets (`parsing_in_bounds`). Behind `names` lies `n`, the number of names, so that after a
write out of bounds nothing is known of the calls that follow (`calls_terminate_iff`).
-/

namespace Netp.Parse.Dns
open Netp.Lib
set_option autoImplicit false
variable {pkt : Packet} {sect : Sections} {bufs : Buf → List UInt8} {names : List ℕ}
  {p p' q s off start n m : ℕ} {stop : Option ℕ} {ps ls : List (List UInt8)}
  {part nb nb' : List UInt8} {good : Bool} {c : Config}

/-! ## What a name stands for -/

/-- The parts of the name at a position, through the registered labels its pointers lead to. It is
`good` where it ends in a zero. -/
inductive Expands (pkt : Packet) (names : List ℕ) : ℕ → List (List UInt8) → Bool → Prop
  | zero {q : ℕ} {ps : List (List UInt8)} (h : Parts pkt q ps none) : Expands pkt names q ps true
  | lost {q off : ℕ} {ps : List (List UInt8)} (h : Parts pkt q ps (some off)) (hoff : off ∉ names) :
      Expands pkt names q ps false
  | pointer {q off : ℕ} {ps ls : List (List UInt8)} {good : Bool} (h : Parts pkt q ps (some off))
      (hoff : off ∈ names) (rest : Expands pkt names off ls good) : Expands pkt names q (ps ++ ls) good

/-- The text of a name: the parts with dots between them. -/
def text (ls : List (List UInt8)) : List UInt8 := [46].intercalate ls

/-- The bytes of the buffer that a name takes: a zero ends a good one. -/
def size (ls : List (List UInt8)) (good : Bool) : ℕ := (text ls).length + if good then 1 else 0

theorem Returns.expands (hk : Known pkt names) (hs : Scanned pkt s) (h : Returns pkt names s) :
    ∃ ls good, Expands pkt names s ls good := by
  obtain ⟨n, hn⟩ := (returns_iff_ends_hop hk hs).mp h
  clear h
  induction n generalizing s with
  | zero => cases hn
  | succ n ih =>
      obtain ⟨ps, stop, hp⟩ := hs
      rw [follow_one_add, hp.hop] at hn
      cases stop with
      | none => exact ⟨ps, true, .zero hp⟩
      | some off =>
          by_cases hoff : off ∈ names
          · simp only [Option.filter, hoff, decide_true, if_true, Option.bind_some] at hn
            have hrest : Scanned pkt off := (hk off hoff).scanned
            obtain ⟨ls, good, hls⟩ := ih hrest hn
            exact ⟨_, _, .pointer hp hoff hls⟩
          · exact ⟨ps, false, .lost hp hoff⟩

/-! ## What a call writes -/

/-- The buffer with more parts. -/
def written (nb : List UInt8) (ls : List (List UInt8)) : List UInt8 := ls.foldl joinPart nb

theorem written_append (nb : List UInt8) (ps ls : List (List UInt8)) :
    written nb (ps ++ ls) = written (written nb ps) ls := List.foldl_append

theorem written_dots (hnb : nb ≠ []) (ls : List (List UInt8)) (hls : ls ≠ []) :
    written nb ls = nb ++ 46 :: text ls := by
  induction ls generalizing nb with
  | nil => exact absurd rfl hls
  | cons part ls ih =>
      have hjoin : joinPart nb part = nb ++ 46 :: part := by simp [joinPart, hnb]
      by_cases hnil : ls = []
      · subst hnil
        simpa [written, text] using hjoin
      · have hne : joinPart nb part ≠ [] := by simp [hjoin]
        calc written nb (part :: ls) = joinPart nb part ++ 46 :: text ls := ih hne hnil
          _ = nb ++ 46 :: text (part :: ls) := by
            simp [hjoin, text, List.intercalate_cons_of_ne_nil hnil]

theorem written_text (h : ∀ part ∈ ls, part ≠ []) : written [] ls = text ls := by
  cases ls with
  | nil => rfl
  | cons part ls =>
      have hpart : part ≠ [] := h part (by simp)
      by_cases hnil : ls = []
      · subst hnil
        simp [written, joinPart, text]
      · calc written [] (part :: ls) = part ++ 46 :: text ls := written_dots hpart ls hnil
          _ = text (part :: ls) := by simp [text, List.intercalate_cons_of_ne_nil hnil]

theorem Parts.ne_nil (h : Parts pkt q ps stop) : ∀ part ∈ ps, part ≠ [] := by
  induction ps generalizing q with
  | nil => simp
  | cons part ps ih =>
      obtain ⟨hne, q', hq, -⟩ := h.turn_part
      intro part' hmem
      rcases List.mem_cons.mp hmem with rfl | hmem
      · exact hne
      · exact ih hq part' hmem

theorem Expands.ne_nil (h : Expands pkt names q ls good) : ∀ part ∈ ls, part ≠ [] := by
  induction h with
  | zero h => exact h.ne_nil
  | lost h => exact h.ne_nil
  | pointer h _ _ ih => exact fun part hp => (List.mem_append.mp hp).elim (h.ne_nil part) (ih part)

theorem Parts.copies (h : Parts pkt q ps stop) (hn : copyName pkt names start n = .next q nb) :
    ∃ e, Parts pkt e [] stop ∧
      copyName pkt names start (n + ps.length) = .next e (written nb ps) := by
  induction ps generalizing q n nb with
  | nil => exact ⟨q, h, hn⟩
  | cons part ps ih =>
      obtain ⟨-, q', hq, hturn⟩ := h.turn_part
      have hnext : copyName pkt names start (n + 1) = .next q' (joinPart nb part) := by
        rw [copyName, hn]
        exact hturn names nb
      obtain ⟨e, he, hcopy⟩ := ih hq hnext
      refine ⟨e, he, ?_⟩
      rw [List.length_cons, Nat.add_comm ps.length, ← Nat.add_assoc]
      exact hcopy

/-- The last turn of a call, with the text of the name in the buffer. -/
def lastTurn (good : Bool) (nb : List UInt8) : Turn :=
  if good then .ret 0 (nb ++ [0]) else .ret (-1) (0 :: nb.drop 1)

theorem Expands.copies (start : ℕ) (h : Expands pkt names q ls good) :
    ∀ {n nb}, copyName pkt names start n = .next q nb → ∃ m e,
      copyName pkt names start m = .next e (written nb ls) ∧
      copyName pkt names start (m + 1) = lastTurn good (written nb ls) := by
  induction h with
  | zero h =>
      intro n nb hn
      obtain ⟨e, he, hcopy⟩ := h.copies hn
      exact ⟨_, e, hcopy, by rw [copyName, hcopy]; exact he.turn_zero⟩
  | lost h hoff =>
      intro n nb hn
      obtain ⟨e, he, hcopy⟩ := h.copies hn
      exact ⟨_, e, hcopy, by rw [copyName, hcopy]; exact he.turn_pointer.trans (if_neg hoff)⟩
  | @pointer q off ps ls good h hoff _ ih =>
      intro n nb hn
      obtain ⟨e, he, hcopy⟩ := h.copies hn
      have hnext : copyName pkt names start (n + ps.length + 1) = .next off (written nb ps) := by
        rw [copyName, hcopy]
        exact he.turn_pointer.trans (if_pos hoff)
      rw [written_append]
      exact ih hnext

/-! ## The bounds of a call -/

/-- What has been written fits a buffer of 256 bytes, and what has been read is in the packet. -/
def Turn.Within : Turn → Prop
  | .next _ nb => nb.length ≤ 256
  | .ret _ nb => nb.length ≤ 256
  | .outside => False

theorem copyTurn_length (h : copyTurn pkt names p nb = .next p' nb') : nb.length ≤ nb'.length := by
  unfold copyTurn at h
  split at h
  · cases h
  dsimp only at h
  split at h
  · cases h
  split at h
  · split at h
    · cases h
    · cases h
      by_cases hnb : nb = [] <;> simp [hnb]
  split at h
  · split at h
    · cases h
    · split at h <;> cases h
      rfl
  · cases h
    rfl

theorem copyName_mono (h : copyName pkt names start n = .next p nb)
    (h' : copyName pkt names start (n + m) = .next p' nb') : nb.length ≤ nb'.length := by
  induction m generalizing p' nb' with
  | zero =>
      rw [Nat.add_zero, h] at h'
      cases h'
      rfl
  | succ m ih =>
      rw [← Nat.add_assoc, copyName] at h'
      split at h'
      · next q nb₁ hq => exact (ih hq).trans (copyTurn_length h')
      · next hne => exact absurd h' (hne _ _)

theorem Label.parts_ne_nil (h : Label pkt q) (hp : Parts pkt q ps stop) : ps ≠ [] := by
  obtain ⟨part, ps', stop', h⟩ := h
  rintro rfl
  have := h.registered.1.symm.trans hp.registered.1
  simp at this

/-- A part makes the text longer, and there is a part between two pointers. -/
theorem copyName_grows (hk : Known pkt names) (hs : Scanned pkt s) :
    ∀ {n p nb}, copyName pkt names s n = .next p nb →
      n ≤ 2 * nb.length + 1 ∧ ∀ stop, Parts pkt p [] stop → n ≤ 2 * nb.length := by
  intro n
  induction n with
  | zero =>
      intro p nb h
      simp
  | succ n ih =>
      intro p nb h
      obtain ⟨p₀, nb₀, hn, -, ps, stop, hp⟩ | ⟨r, nb₀, hn, -⟩ := copyName_follow hk hs n
      · rw [copyName, hn] at h
        obtain ⟨hodd, heven⟩ := ih hn
        cases ps with
        | cons part ps =>
            obtain ⟨hne, q', -, hturn⟩ := hp.turn_part
            simp only [hturn, Turn.next.injEq] at h
            have hpos : 0 < part.length := List.length_pos_of_ne_nil hne
            have hlen : nb₀.length + part.length ≤ nb.length := by
              rw [← h.2, joinPart]
              split_ifs <;> simp
            exact ⟨by omega, fun _ _ => by omega⟩
        | nil =>
            have hle := heven stop hp
            cases stop with
            | none => simp [hp.turn_zero] at h
            | some off =>
                simp only [hp.turn_pointer] at h
                split_ifs at h with hoff
                cases h
                exact ⟨by omega, fun stop hoff' => absurd rfl ((hk _ hoff).parts_ne_nil hoff')⟩
      · simp [copyName, hn] at h

theorem visits_of_not_returns (hk : Known pkt names) (hs : Scanned pkt s)
    (h : ¬ Returns pkt names s) : ∃ p, Visits pkt names s n p := by
  obtain ⟨p, nb, hp, -⟩ | ⟨r, nb, hp, -⟩ := copyName_follow hk hs n
  · exact ⟨p, nb, hp⟩
  · exact absurd ⟨n, r, nb, hp⟩ h

theorem leaves_of_not_returns (hk : Known pkt names) (hs : Scanned pkt s)
    (h : ¬ Returns pkt names s) (hn : 513 < n) : ¬ (copyName pkt names s n).Within := by
  obtain ⟨p, nb, hp⟩ := visits_of_not_returns hk hs h (n := n)
  have hle := (copyName_grows hk hs hp).1
  intro hw
  simp only [hp, Turn.Within] at hw
  omega

/-- A call stays within its bounds exactly when the name it copies fits the buffer. -/
theorem within_iff (hk : Known pkt names) (hs : Scanned pkt s) :
    (∀ n, (copyName pkt names s n).Within) ↔
      ∃ ls good, Expands pkt names s ls good ∧ size ls good ≤ 256 := by
  constructor
  · intro h
    have hret : Returns pkt names s := by
      by_contra hret
      obtain ⟨n, hn⟩ : ∃ n, 513 < n := ⟨514, by omega⟩
      exact leaves_of_not_returns hk hs hret hn (h n)
    obtain ⟨ls, good, hls⟩ := hret.expands hk hs
    have hstart : copyName pkt names s 0 = .next s [] := rfl
    obtain ⟨m, e, hm, hlast⟩ := hls.copies s hstart
    rw [written_text hls.ne_nil] at hm hlast
    refine ⟨ls, good, hls, ?_⟩
    cases good with
    | true => simpa [hlast, lastTurn, Turn.Within, size] using h (m + 1)
    | false => simpa [hm, Turn.Within, size] using h m
  · rintro ⟨ls, good, hls, hsize⟩ n
    have hstart : copyName pkt names s 0 = .next s [] := rfl
    obtain ⟨m, e, hm, hlast⟩ := hls.copies s hstart
    rw [written_text hls.ne_nil] at hm hlast
    rcases Nat.lt_or_ge m n with hmn | hmn
    · obtain ⟨k, rfl⟩ := Nat.exists_eq_add_of_le hmn
      have hstop : ¬ ∃ p, Visits pkt names s (m + 1) p := by
        rintro ⟨p, nb, hp⟩
        rw [hlast] at hp
        cases good <;> cases hp
      rw [copyName_stays hstop, hlast]
      cases good with
      | true => simpa [lastTurn, Turn.Within, size] using hsize
      | false =>
          simp only [size, lastTurn, Turn.Within, Bool.false_eq_true, if_false, List.length_cons,
            List.length_drop] at hsize ⊢
          omega
    · obtain ⟨k, rfl⟩ := Nat.exists_eq_add_of_le hmn
      obtain ⟨p, nb, hn, -⟩ | ⟨r, nb, hn, -⟩ := copyName_follow hk hs n
      · have hmono := copyName_mono hn hm
        simp only [hn, Turn.Within]
        simp only [size] at hsize
        omega
      · have hstop : ¬ ∃ p, Visits pkt names s n p := by simp [Visits, hn]
        rw [copyName_stays hstop, hn] at hm
        cases hm

/-! ## The bounds of a packet -/

/-- `names` has 32 entries. -/
structure InBounds (c : Config) : Prop where
  names : c.names.length ≤ 32
  copy : ∀ k, c.copying = some k → k.turn.Within

section Bounds
variable (hbounds : ∀ c, Reach (parsing pkt sect bufs) c → InBounds c)
include hbounds

/-- A call that does not return goes out of bounds. -/
theorem returns_of_inBounds {k : Copying} (hc : Reach (parsing pkt sect bufs) c) (hk : c.copying = some k) :
    Returns pkt c.names k.start := by
  obtain ⟨b, start, turn⟩ := k
  obtain ⟨hcall, n, hn⟩ := (Inv.reach hc).call _ hk
  simp only at hn
  subst hn
  have hscan := copies_scanned (data_scanned pkt sect) hcall
  by_contra hret
  obtain ⟨m, hm⟩ : ∃ m, 513 < n + m := ⟨514, by omega⟩
  have hlate := reach_turns m hc hk fun i _ => visits_of_not_returns hscan.1 hscan.2 hret
  exact leaves_of_not_returns hscan.1 hscan.2 hret hm ((hbounds _ hlate).copy _ rfl)

theorem namesOf_le : (namesOf pkt (data pkt sect)).length ≤ 32 := by
  obtain ⟨c, hc, -, -, hnames⟩ :=
    reach_actions (fun _ _ => returns_of_inBounds hbounds) (data pkt sect) [] (by simp)
  exact hnames ▸ (hbounds c hc).names

theorem copies_fit : ∀ call ∈ copies pkt [] (data pkt sect), ∃ ls good,
    Expands pkt call.1 call.2 ls good ∧ size ls good ≤ 256 := by
  intro call hcall
  have hscan := copies_scanned (data_scanned pkt sect) hcall
  obtain ⟨c, b, hc, hnames, hcopy⟩ := reach_copies (fun _ _ => returns_of_inBounds hbounds) hcall
  have hcall' := returns_of_inBounds hbounds hc hcopy
  simp only [hnames] at hcall'
  obtain ⟨last, r, nb, hbefore, hlast⟩ := hcall'.turn 0
  have hreached (n : ℕ) (hn : n ≤ last) : (copyName pkt call.1 call.2 n).Within := by
    have := (hbounds _ (reach_turns (k := 0) n hc hcopy fun m hm => by
      rw [hnames]
      exact hbefore m (by omega))).copy _ rfl
    rwa [hnames, Nat.zero_add] at this
  apply (within_iff hscan.1 hscan.2).mp
  intro n
  rcases Nat.le_total n last with hn | hn
  · exact hreached n hn
  · obtain ⟨k, rfl⟩ := Nat.exists_eq_add_of_le hn
    rw [Nat.zero_add] at hlast
    rw [copyName_stays (by simp [Visits, hlast])]
    exact hreached last le_rfl

end Bounds

theorem inBounds_of_fit (hnames : (namesOf pkt (data pkt sect)).length ≤ 32)
    (hcalls : ∀ call ∈ copies pkt [] (data pkt sect), ∃ ls good,
      Expands pkt call.1 call.2 ls good ∧ size ls good ≤ 256)
    (hc : Reach (parsing pkt sect bufs) c) : InBounds c := by
  have hinv := Inv.reach hc
  constructor
  · obtain ⟨pre, hacts, hpre⟩ := hinv.split
    rw [hacts, namesOf_append, List.length_append, ← hpre] at hnames
    omega
  · intro k hk
    obtain ⟨hcall, n, hn⟩ := hinv.call k hk
    have hscan := copies_scanned (data_scanned pkt sect) hcall
    rw [hn]
    exact (within_iff hscan.1 hscan.2).mpr (hcalls _ hcall) n

/-- A packet stays within the bounds exactly when its names have at most 32 labels in all, and each
name that is copied fits the buffer. -/
theorem parsing_in_bounds (pkt : Packet) (sect : Sections) (bufs : Buf → List UInt8) :
    (∀ c, Reach (parsing pkt sect bufs) c → InBounds c) ↔
      (namesOf pkt (data pkt sect)).length ≤ 32 ∧
        ∀ call ∈ copies pkt [] (data pkt sect), ∃ ls good,
          Expands pkt call.1 call.2 ls good ∧ size ls good ≤ 256 :=
  ⟨fun h => ⟨namesOf_le h, copies_fit h⟩, fun h _ => inBounds_of_fit h.1 h.2⟩

/-- Every call terminates, and nothing is written out of bounds before it has, exactly when there are no more
than 32 labels, and each copied name leads to no label twice and fits the buffer. -/
theorem calls_terminate_iff (pkt : Packet) (sect : Sections) (bufs : Buf → List UInt8) :
    (∀ c, Reach (parsing pkt sect bufs) c →
      InBounds c ∧ ∀ k, c.copying = some k → Terminates pkt c.names k.start) ↔
      (namesOf pkt (data pkt sect)).length ≤ 32 ∧
        ∀ call ∈ copies pkt [] (data pkt sect), NoRepeat (hop pkt call.1) call.2 ∧
          ∃ ls good, Expands pkt call.1 call.2 ls good ∧ size ls good ≤ 256 := by
  constructor
  · intro h
    have hbounds := fun c hc => (h c hc).1
    have hends := (copies_terminate pkt sect bufs).mp fun c k hc hk => (h c hc).2 k hk
    exact ⟨namesOf_le hbounds, fun call hcall => ⟨hends call hcall, copies_fit hbounds call hcall⟩⟩
  · rintro ⟨hnames, hcalls⟩ c hc
    exact ⟨inBounds_of_fit hnames (fun call hcall => (hcalls call hcall).2) hc,
      fun k hk => (copies_terminate pkt sect bufs).mpr (fun call hcall => (hcalls call hcall).1) c k hc hk⟩

/-- A question whose name has 33 labels of one byte. -/
def manyLabels : Packet :=
  [0, 0, 0, 0, 0, 1, 0, 0, 0, 0, 0, 0] ++ (List.replicate 33 [1, 97]).flatten ++ [0, 0, 1, 0, 1]

theorem names_overflow :
    ∃ c, Reach (parsing manyLabels noSections fun _ => []) c ∧ ¬ c.names.length ≤ 32 := by
  let M := parsing manyLabels noSections fun _ => []
  have hrun : (run M M.init (List.replicate 39 ())).map (fun c => c.names.length) = some 33 := by
    rfl
  obtain ⟨c, hc, hlen⟩ := Option.map_eq_some_iff.mp hrun
  exact ⟨c, Reach.run .init hc, by omega⟩

end Netp.Parse.Dns
