import Netp.Parse.DnsNames

/-! # Calls of `copyName` in a run of the DNS parser

Every name that is copied or registered was scanned, whatever the packet. So the positions in `names`
are labels, a call never reads past the packet, and it fails to return exactly when the pointers lead
it round. A name registers its own labels after it was copied, also when the copy gave up at a pointer
into it and when there was none, and from then on such a pointer is a round.
-/

namespace Netp.Parse.Dns
open Netp.Lib
set_option autoImplicit false
variable {pkt : Packet} {sect : Sections} {bufs : Buf → List UInt8} {names : List ℕ} {p q s n : ℕ}
  {acts as : List Action} {c c' : Config} {b : Buf}

/-! ## The actions of a packet -/

/-- What an action adds to `names`. -/
def Action.registers (pkt : Packet) : Action → List ℕ
  | .register s => registered s 0 (pkt.drop s)
  | _ => []

def namesOf (pkt : Packet) (acts : List Action) : List ℕ := acts.flatMap (·.registers pkt)

/-- The names that are copied, each with the positions registered before it. -/
def copies (pkt : Packet) : List ℕ → List Action → List (List ℕ × ℕ)
  | _, [] => []
  | names, .copyName _ ptr :: as => (names, ptr) :: copies pkt names as
  | names, a :: as => copies pkt (names ++ a.registers pkt) as

def Action.Scanned (pkt : Packet) : Action → Prop
  | .copyName _ ptr => Dns.Scanned pkt ptr
  | .register s => Dns.Scanned pkt s
  | _ => True

theorem namesOf_append (as bs : List Action) : namesOf pkt (as ++ bs) = namesOf pkt as ++ namesOf pkt bs :=
  List.flatMap_append

theorem mem_copies {call : List ℕ × ℕ} : call ∈ copies pkt names acts ↔
    ∃ pre b post, acts = pre ++ .copyName b call.2 :: post ∧ call.1 = names ++ namesOf pkt pre := by
  induction acts generalizing names with
  | nil => simp [copies]
  | cons a as ih =>
      have hcons : (∃ pre b post, a :: as = pre ++ .copyName b call.2 :: post ∧
          call.1 = names ++ namesOf pkt pre) ↔
          ((∃ b, a = .copyName b call.2) ∧ call.1 = names) ∨
          ∃ pre b post, as = pre ++ .copyName b call.2 :: post ∧
            call.1 = names ++ a.registers pkt ++ namesOf pkt pre := by
        constructor
        · rintro ⟨pre, b, post, he, hn⟩
          cases pre with
          | nil =>
              cases he
              exact .inl ⟨⟨b, rfl⟩, by simpa [namesOf] using hn⟩
          | cons a' pre =>
              cases he
              exact .inr ⟨pre, b, post, rfl, by simpa [namesOf] using hn⟩
        · rintro (⟨⟨b, rfl⟩, hn⟩ | ⟨pre, b, post, rfl, hn⟩)
          · exact ⟨[], b, as, rfl, by simpa [namesOf] using hn⟩
          · exact ⟨a :: pre, b, post, rfl, by simpa [namesOf] using hn⟩
      rw [hcons]
      cases a with
      | copyName b ptr =>
          obtain ⟨ns, st⟩ := call
          simp only [copies, List.mem_cons, ih, Action.registers, List.append_nil, Prod.mk.injEq,
            Action.copyName.injEq, exists_eq_left', exists_and_right]
          simp [eq_comm, and_comm]
      | _ => simp [copies, ih]

theorem nameEnd_scanned {buf : Option Buf} (h : name p 0 (pkt.drop p) = .final q) :
    ∀ a ∈ nameEnd buf p, a.Scanned pkt := by
  have hp : Scanned pkt p := (Parts.of_name _ rfl h).2
  intro a ha
  rcases List.mem_append.mp ha with ha | ha
  · obtain ⟨nb, -, rfl⟩ := Option.map_eq_some_iff.mp (Option.mem_toList.mp ha)
    exact hp
  · cases List.mem_singleton.mp ha
    exact hp

theorem question_scanned (p : ℕ) : ∀ a ∈ (question pkt p).2, a.Scanned pkt := by
  unfold question
  split
  · simp
  · simp
  · next h => exact nameEnd_scanned h

theorem address_scanned {tree : List UInt8 → List Action} (ht : ∀ l, ∀ a ∈ tree l, a.Scanned pkt) :
    ∀ a ∈ (address pkt n p tree).2, a.Scanned pkt := by
  unfold address
  split
  · exact ht _
  · simp

theorem rdataName_scanned {buf : Option Buf} {tree : List Action} (ht : ∀ a ∈ tree, a.Scanned pkt) :
    ∀ a ∈ (rdataName pkt buf p tree).2, a.Scanned pkt := by
  unfold rdataName
  split
  · simp
  · simp
  · next h => exact fun a ha => (List.mem_append.mp ha).elim (nameEnd_scanned h a) (ht a)

theorem afterName_scanned (q : ℕ) : ∀ a ∈ (afterName pkt q).2, a.Scanned pkt := by
  unfold afterName
  split
  · simp
  split
  · exact address_scanned (by simp [Action.Scanned])
  · exact rdataName_scanned (by simp)
  · exact rdataName_scanned (by simp [Action.Scanned])
  · exact rdataName_scanned (by simp)
  · exact rdataName_scanned (by simp)
  · exact address_scanned (by simp [Action.Scanned])
  · unfold rrUnknown
    split <;> simp

theorem resourceRecord_scanned (p : ℕ) : ∀ a ∈ (resourceRecord pkt p).2, a.Scanned pkt := by
  unfold resourceRecord
  split
  · simp
  · simp
  · next q h => exact fun a ha => (List.mem_append.mp ha).elim (nameEnd_scanned h a) (afterName_scanned q a)

theorem items_forall {machine : ℕ → Option ℕ × List Action} {P : Action → Prop}
    (hm : ∀ p, ∀ a ∈ (machine p).2, P a) (count : ℕ) :
    ∀ p, ∀ a ∈ (items machine count p).2, P a := by
  induction count with
  | zero => simp [items]
  | succ count ih =>
      intro p
      cases p with
      | none => simp [items]
      | some p => exact fun a ha => (List.mem_append.mp ha).elim (hm p a) (ih _ a)

theorem sectionItems_scanned {machine : ℕ → Option ℕ × List Action} {sec : Section}
    (hm : ∀ p, ∀ a ∈ (machine p).2, a.Scanned pkt) (p : Option ℕ) :
    ∀ a ∈ (sectionItems machine sec p).2, a.Scanned pkt := by
  unfold sectionItems
  split
  · simp
  · intro a ha
    simp only [List.cons_append, List.mem_cons, List.mem_append, List.not_mem_nil, or_false] at ha
    rcases ha with rfl | ha | rfl
    · trivial
    · exact items_forall hm _ _ a ha
    · trivial

theorem data_scanned (pkt : Packet) (sect : Sections) : ∀ a ∈ data pkt sect, a.Scanned pkt := by
  intro a ha
  simp only [data, List.cons_append, List.append_assoc, List.mem_cons, List.mem_append,
    List.not_mem_nil, or_false] at ha
  rcases ha with rfl | ha | ha | ha | ha | rfl
  · trivial
  · exact sectionItems_scanned question_scanned _ a ha
  · exact sectionItems_scanned resourceRecord_scanned _ a ha
  · exact sectionItems_scanned resourceRecord_scanned _ a ha
  · exact sectionItems_scanned resourceRecord_scanned _ a ha
  · trivial

theorem known_namesOf (h : ∀ a ∈ acts, a.Scanned pkt) : Known pkt (namesOf pkt acts) := by
  intro q hq
  obtain ⟨a, ha, hq⟩ := List.mem_flatMap.mp hq
  cases a with
  | register s =>
      obtain ⟨ps, stop, hs⟩ := h _ ha
      exact hs.registered.2 q hq
  | _ => simp [Action.registers] at hq

theorem copies_scanned (h : ∀ a ∈ acts, a.Scanned pkt) {call : List ℕ × ℕ}
    (hc : call ∈ copies pkt [] acts) : Known pkt call.1 ∧ Scanned pkt call.2 := by
  obtain ⟨pre, b, post, rfl, hn⟩ := mem_copies.mp hc
  rw [hn, List.nil_append]
  exact ⟨known_namesOf fun a ha => h a (by simp [ha]), h (.copyName b call.2) (by simp)⟩

/-! ## The states of a run -/

/-- What is left to do is the end of the actions, and a call at work is one of the copies. -/
structure Inv (pkt : Packet) (acts : List Action) (c : Config) : Prop where
  split : ∃ pre, acts = pre ++ c.todo ∧ c.names = namesOf pkt pre
  call : ∀ k, c.copying = some k →
    (c.names, k.start) ∈ copies pkt [] acts ∧ ∃ n, k.turn = copyName pkt c.names k.start n

theorem Inv.step (h : Inv pkt acts c) (hs : c.step pkt = some c') : Inv pkt acts c' := by
  obtain ⟨todo, copying, names, bufs, tree⟩ := c
  obtain ⟨⟨pre, hacts, hnames⟩, hcall⟩ := h
  -- an action other than a copy that has been performed
  have hdone : ∀ {a as} {c' : Config}, todo = a :: as → c'.todo = as → c'.copying = none →
      c'.names = names ++ a.registers pkt → Inv pkt acts c' := by
    intro a as c' htodo hrest hnone hreg
    refine ⟨⟨pre ++ [a], by simpa [hrest, ← htodo] using hacts, ?_⟩, by simp [hnone]⟩
    rw [namesOf_append, hreg, ← hnames]
    simp [namesOf]
  cases copying with
  | some k =>
      obtain ⟨buf, start, turn⟩ := k
      cases turn with
      | next ptr nb =>
          cases hs
          obtain ⟨hin, n, hn⟩ := hcall _ rfl
          refine ⟨⟨pre, hacts, hnames⟩, fun k hk => ?_⟩
          cases hk
          exact ⟨hin, n + 1, by simp [copyName, ← hn]⟩
      | ret r nb =>
          cases hs
          exact ⟨⟨pre, hacts, hnames⟩, by simp⟩
      | outside => cases hs
  | none =>
      cases todo with
      | nil => cases hs
      | cons a as =>
          cases a with
          | copyName buf ptr =>
              cases hs
              refine ⟨⟨pre ++ [.copyName buf ptr], by simpa using hacts, ?_⟩, fun k hk => ?_⟩
              · rw [namesOf_append, hnames]
                simp [namesOf, Action.registers]
              · cases hk
                exact ⟨mem_copies.mpr ⟨pre, buf, as, hacts, hnames⟩, 0, rfl⟩
          | register s =>
              cases hs
              exact hdone rfl rfl rfl rfl
          | _ =>
              cases hs
              exact hdone rfl rfl rfl (List.append_nil _).symm

theorem Inv.reach (h : Reach (parsing pkt sect bufs) c) : Inv pkt (data pkt sect) c :=
  ReachIf.invariant (M := parsing pkt sect bufs) ⟨⟨[], rfl, rfl⟩, fun _ hk => by cases hk⟩
    (fun _ _ _ h _ hs => h.step hs) h

theorem reach_step (h : Reach (parsing pkt sect bufs) c) (hs : c.step pkt = some c') :
    Reach (parsing pkt sect bufs) c' :=
  ReachIf.next (a := ()) h trivial hs

theorem reach_turns {start k : ℕ} (n : ℕ) :
    ∀ {c}, Reach (parsing pkt sect bufs) c → c.copying = some ⟨b, start, copyName pkt c.names start k⟩ →
      (∀ m < n, ∃ p, Visits pkt c.names start (k + m) p) →
      Reach (parsing pkt sect bufs) { c with copying := some ⟨b, start, copyName pkt c.names start (k + n)⟩ } := by
  induction n with
  | zero =>
      intro c h hc _
      rwa [Nat.add_zero, ← hc]
  | succ n ih =>
      intro c h hc hv
      have hr := ih h hc fun m hm => hv m (by omega)
      obtain ⟨p, nb, hp⟩ := hv n (by omega)
      exact reach_step hr (by simp [Config.step, hp, copyName])

theorem Returns.turn {start : ℕ} (h : Returns pkt names start) (k : ℕ) :
    ∃ n r nb, (∀ m < n, ∃ p, Visits pkt names start (k + m) p) ∧
      copyName pkt names start (k + n) = .ret r nb := by
  classical
  obtain ⟨last, r, nb, hlast⟩ := h
  have hend : ∃ n, ¬ ∃ p, Visits pkt names start (k + n) p := by
    refine ⟨last, ?_⟩
    rintro ⟨p, nb', hp⟩
    rw [Nat.add_comm, copyName_stays (by simp [Visits, hlast]), hlast] at hp
    cases hp
  have hn := Nat.find_spec hend
  have hbefore : ∀ m < Nat.find hend, ∃ p, Visits pkt names start (k + m) p :=
    fun m hm => not_not.mp (Nat.find_min hend hm)
  refine ⟨Nat.find hend, r, nb, hbefore, ?_⟩
  calc copyName pkt names start (k + Nat.find hend)
      = copyName pkt names start (k + Nat.find hend + last) := (copyName_stays hn last).symm
    _ = copyName pkt names start (last + (k + Nat.find hend)) := by rw [Nat.add_comm]
    _ = .ret r nb := by rw [copyName_stays (by simp [Visits, hlast]), hlast]

theorem reach_returned {k : Copying} (h : Reach (parsing pkt sect bufs) c) (hc : c.copying = some k)
    (hret : Returns pkt c.names k.start) :
    ∃ bufs', Reach (parsing pkt sect bufs) { c with copying := none, bufs := bufs' } := by
  obtain ⟨buf, start, turn⟩ := k
  obtain ⟨-, n, hn⟩ := (Inv.reach h).call _ hc
  simp only at hn
  subst hn
  obtain ⟨m, r, nb, hbefore, hm⟩ := hret.turn n
  exact ⟨_, reach_step (reach_turns m h hc hbefore) (by rw [hm]; rfl)⟩

/-- Where every call that is made returns, all the actions are performed. -/
theorem reach_actions
    (hret : ∀ c k, Reach (parsing pkt sect bufs) c → c.copying = some k → Returns pkt c.names k.start)
    (pre post : List Action) (h : data pkt sect = pre ++ post) :
    ∃ c, Reach (parsing pkt sect bufs) c ∧ c.todo = post ∧ c.copying = none ∧ c.names = namesOf pkt pre := by
  induction pre using List.reverseRecOn generalizing post with
  | nil => exact ⟨_, .init, h, rfl, rfl⟩
  | append_singleton pre a ih =>
      obtain ⟨c, hc, htodo, hnone, hnames⟩ := ih (a :: post) (by simpa using h)
      obtain ⟨todo, copying, names, bufs', tree⟩ := c
      cases htodo
      cases hnone
      have hstep : ∃ c', Config.step pkt ⟨a :: post, none, names, bufs', tree⟩ = some c' ∧
          c'.todo = post ∧ c'.names = names ++ a.registers pkt := by
        cases a <;> exact ⟨_, rfl, rfl, by simp [Action.registers]⟩
      obtain ⟨c', hs, htodo', hnames'⟩ := hstep
      have hreach := reach_step hc hs
      have hlast : c'.names = namesOf pkt (pre ++ [a]) := by
        rw [hnames', namesOf_append]
        simp only at hnames
        simp [namesOf, hnames]
      cases hcopy : c'.copying with
      | none => exact ⟨c', hreach, htodo', hcopy, hlast⟩
      | some k =>
          obtain ⟨bufs'', hr⟩ := reach_returned hreach hcopy (hret c' k hreach hcopy)
          exact ⟨_, hr, htodo', rfl, hlast⟩

theorem reach_copies
    (hret : ∀ c k, Reach (parsing pkt sect bufs) c → c.copying = some k → Returns pkt c.names k.start)
    {call : List ℕ × ℕ} (h : call ∈ copies pkt [] (data pkt sect)) :
    ∃ c b, Reach (parsing pkt sect bufs) c ∧ c.names = call.1 ∧ c.copying = some ⟨b, call.2, .next call.2 []⟩ := by
  obtain ⟨pre, b, post, hacts, hn⟩ := mem_copies.mp h
  obtain ⟨c, hc, htodo, hnone, hnames⟩ := reach_actions hret pre _ hacts
  obtain ⟨todo, copying, names, bufs', tree⟩ := c
  cases htodo
  cases hnone
  exact ⟨_, b, reach_step hc rfl, hnames.trans hn.symm, rfl⟩

/-! ## Termination -/

/-- The call returns, and comes to no position of the packet twice. -/
structure Terminates (pkt : Packet) (names : List ℕ) (start : ℕ) : Prop where
  returns : Returns pkt names start
  once : ∀ i j p, i < j → Visits pkt names start i p → ¬ Visits pkt names start j p

theorem terminates_iff (hk : Known pkt names) (hs : Scanned pkt s) :
    Terminates pkt names s ↔ NoRepeat (hop pkt names) s := by
  rw [← returns_iff_hops hk hs]
  refine ⟨Terminates.returns, fun h => ⟨h, fun i j p hij hi => ?_⟩⟩
  rw [visits_iff hk hs] at hi ⊢
  exact (returns_iff_noRepeat hk hs).mp h i j p hij hi

/-- Every call that is made terminates exactly when no copied name leads to a label twice, by the
pointers through the labels registered before it. -/
theorem copies_terminate (pkt : Packet) (sect : Sections) (bufs : Buf → List UInt8) :
    (∀ c k, Reach (parsing pkt sect bufs) c → c.copying = some k → Terminates pkt c.names k.start) ↔
      ∀ call ∈ copies pkt [] (data pkt sect), NoRepeat (hop pkt call.1) call.2 := by
  have hscan {call : List ℕ × ℕ} (h : call ∈ copies pkt [] (data pkt sect)) :=
    copies_scanned (data_scanned pkt sect) h
  constructor
  · intro h call hcall
    obtain ⟨c, b, hc, hnames, hcopy⟩ :=
      reach_copies (fun c k hc hk => (h c k hc hk).returns) hcall
    have ht := h c _ hc hcopy
    rw [hnames] at ht
    exact (terminates_iff (hscan hcall).1 (hscan hcall).2).mp ht
  · intro h c k hc hk
    have hcall := ((Inv.reach hc).call k hk).1
    exact (terminates_iff (hscan hcall).1 (hscan hcall).2).mpr (h _ hcall)

def noSections : Sections := ⟨⟨0, .root⟩, ⟨0, .root⟩, ⟨0, .root⟩, ⟨0, .root⟩⟩

/-- Two questions. The name of the first is a label and a pointer to that label, whose copy gives up;
the name of the second is a pointer to it. -/
def selfReference : Packet :=
  [0, 0, 0, 0, 0, 2, 0, 0, 0, 0, 0, 0, 1, 97, 0xc0, 12, 0, 1, 0, 1, 0xc0, 12, 0, 1, 0, 1]

theorem copy_never_returns : ∃ c k, Reach (parsing selfReference noSections fun _ => []) c ∧
    c.copying = some k ∧ ¬ Returns selfReference c.names k.start ∧
      Visits selfReference c.names k.start 1 12 ∧ Visits selfReference c.names k.start 3 12 := by
  let M := parsing selfReference noSections fun _ => []
  have hrun : (run M M.init (List.replicate 8 ())).map (fun c => (c.names, c.copying.map Copying.start)) =
      some ([12], some 20) := rfl
  obtain ⟨c, hc, hf⟩ := Option.map_eq_some_iff.mp hrun
  obtain ⟨hnames, hcopy⟩ := Prod.mk.inj hf
  obtain ⟨k, hk, hstart⟩ := Option.map_eq_some_iff.mp hcopy
  have hreach := Reach.run .init hc
  have hcall := copies_scanned (data_scanned _ _) ((Inv.reach hreach).call k hk).1
  have honce : Visits selfReference [12] 20 1 12 := ⟨[], by decide⟩
  have htwice : Visits selfReference [12] 20 3 12 := ⟨[97], by decide⟩
  rw [hnames, hstart] at hcall
  refine ⟨c, k, hreach, hk, ?_⟩
  rw [hnames, hstart]
  refine ⟨fun hret => ?_, honce, htwice⟩
  rw [visits_iff hcall.1 hcall.2] at honce htwice
  exact (returns_iff_noRepeat hcall.1 hcall.2).mp hret 1 3 12 (by omega) honce htwice

end Netp.Parse.Dns
