import Mathlib.Data.List.TakeWhile
import Netp.Parse.DnsCalls
import Netp.Parse.Match

/-! # Redirects from sniffed DNS (`sniff/sniff.cc`)

Two patterns under a `DnsAnswer` node, one for A records and one for CNAME records, whose callbacks
share the set of names to look for and the set of addresses reported. `redirects_match` compares the
calls of `matchedDns` with a fold over the records of the answer sections.

What `matchedDns` does with an address, and patterns that loaded modules add, are left out.
-/

namespace Netp.Sniff
open Netp.Lib Netp.Parse Netp.Parse.Dns
set_option autoImplicit false

/-! ## The callbacks -/

/-- `MatchDnsAnswer`, and the addresses `matchedDns` has been called with. -/
structure MatchDnsAnswer where
  lookupSet : List Text
  ipsAdded : List ℕ
  matchedDns : List String

/-- `sprintf` with `"%u.%u.%u.%u"`. -/
def toa (addr : List UInt8) : String :=
  ".".intercalate ((List.range 4).map fun i => toString (addr.getD i 0).toNat)

/-- The address as a `uint32_t`. -/
def ip (addr : List UInt8) : ℕ :=
  (addr.getD 0 0).toNat <<< 0 ||| (addr.getD 1 0).toNat <<< 8 |||
    (addr.getD 2 0).toNat <<< 16 ||| (addr.getD 3 0).toNat <<< 24

namespace MatchDnsAnswer

/-- `CmpStr` compares as `strcmp` does. -/
def find (m : MatchDnsAnswer) (name : Text) : Bool := cstr name ∈ m.lookupSet

def answerCname (m : MatchDnsAnswer) (name cname : Text) : MatchDnsAnswer :=
  if m.find name then
    if m.find cname then m else { m with lookupSet := cstr cname :: m.lookupSet }
  else m

def answerA (m : MatchDnsAnswer) (name : Text) (addr : List UInt8) : MatchDnsAnswer :=
  if m.find name then
    if ip addr ∈ m.ipsAdded then m
    else { m with ipsAdded := ip addr :: m.ipsAdded, matchedDns := m.matchedDns ++ [toa addr] }
  else m

end MatchDnsAnswer

/-- The children of a node from the first one of a type on. -/
def fromChild (node : DataNode) (type : NodeType) : List DataNode :=
  node.children.dropWhile fun child => child.type ≠ type

def findChild (node : DataNode) (type : NodeType) : Option DataNode := (fromChild node type).head?

inductive OnMatch
  | matchDnsAnswer1 | matchDnsAnswer2
  deriving DecidableEq

def matchDnsAnswer1 (rra : DataNode) (mda : MatchDnsAnswer) : Option (MatchDnsAnswer × MatchResult) :=
  match findChild rra .dnsName, findChild rra .dnsAddr with
  | some name, some value => match value.data with
      | some addr => some (mda.answerA name.text addr, .matchFinished)
      | none => some (mda, .matchFinished)
  | _, _ => some (mda, .matchFinished)

/-- `name->next` is read before `name` is compared with 0. -/
def matchDnsAnswer2 (rra : DataNode) (mda : MatchDnsAnswer) : Option (MatchDnsAnswer × MatchResult) :=
  match fromChild rra .dnsName with
  | [] => none
  | [_] => some (mda, .matchFinished)
  | name :: value :: _ => some (mda.answerCname name.text value.text, .matchFinished)

/-! ## The patterns -/

def consPatDnsAnswer1 : PatNode :=
  .mk .dnsAnswer [] false false false false [.mk .dnsRrA [] true false true false []]

def consPatDnsAnswer2 : PatNode :=
  .mk .dnsAnswer [] false false false false [.mk .dnsRrCname [] true false true false []]

/-- Of the two nodes with `onMatch`, the one for CNAME records has `a2`. -/
def callbacks : Callbacks OnMatch MatchDnsAnswer where
  object n := if n.type = .dnsRrCname then .matchDnsAnswer2 else .matchDnsAnswer1
  onMatch
    | .matchDnsAnswer1 => matchDnsAnswer1
    | .matchDnsAnswer2 => matchDnsAnswer2

/-- The tree of `udpCtx` after `configureContext`, with the names of the modules. -/
def configureContext (proxyHostNames : List Text) : MatchTree MatchDnsAnswer :=
  initTree [consPatDnsAnswer1, consPatDnsAnswer2] ⟨proxyHostNames, [], []⟩

/-! ## A record in the tree -/

/-- What a record of an answer section does to the sets. -/
def record (m : MatchDnsAnswer) : Record → MatchDnsAnswer
  | .a name addr => m.answerA name addr
  | .cname name target => m.answerCname name target
  | _ => m

/-- The states of the two patterns at a `DnsAnswer` node. -/
def answerStates : List PatState := (addRootItems .dnsAnswer [consPatDnsAnswer1, consPatDnsAnswer2]).2

variable {v : MatchTree MatchDnsAnswer}

theorem record_quiet (r : Record) (ha : v.vt.active = [])
    (hp : v.patRoots = [consPatDnsAnswer1, consPatDnsAnswer2]) :
    ∃ children, v.calls callbacks r.calls = some { v with vt := { v.vt with children := children } } := by
  obtain ⟨⟨type, text, data, children, active⟩, vs, roots, topBarrier, err, state⟩ := v
  cases ha
  cases hp
  cases r <;> exact ⟨_, rfl⟩

theorem record_answer (r : Record) (ha : v.vt.active = answerStates)
    (hp : v.patRoots = [consPatDnsAnswer1, consPatDnsAnswer2]) :
    ∃ children, v.calls callbacks r.calls =
      some { v with vt := { v.vt with children := children }, state := record v.state r } := by
  obtain ⟨⟨type, text, data, children, active⟩, vs, roots, topBarrier, err, state⟩ := v
  cases ha
  cases hp
  cases r <;> exact ⟨_, rfl⟩

theorem records_quiet (rs : List Record) : ∀ {v : MatchTree MatchDnsAnswer}, v.vt.active = [] →
    v.patRoots = [consPatDnsAnswer1, consPatDnsAnswer2] → ∃ children,
      v.calls callbacks (rs.flatMap Record.calls) =
        some { v with vt := { v.vt with children := children } } := by
  induction rs with
  | nil => exact fun {v} _ _ => ⟨v.vt.children, rfl⟩
  | cons r rs ih =>
      intro v ha hp
      obtain ⟨children, hr⟩ := record_quiet r ha hp
      obtain ⟨children', hrs⟩ := ih (v := { v with vt := { v.vt with children := children } }) ha hp
      refine ⟨children', ?_⟩
      rw [List.flatMap_cons, MatchTree.calls_append, hr]
      exact hrs

theorem records_answer (rs : List Record) : ∀ {v : MatchTree MatchDnsAnswer},
    v.vt.active = answerStates → v.patRoots = [consPatDnsAnswer1, consPatDnsAnswer2] → ∃ children,
      v.calls callbacks (rs.flatMap Record.calls) =
        some { v with vt := { v.vt with children := children }, state := rs.foldl record v.state } := by
  induction rs with
  | nil => exact fun {v} _ _ => ⟨v.vt.children, rfl⟩
  | cons r rs ih =>
      intro v ha hp
      obtain ⟨children, hr⟩ := record_answer r ha hp
      obtain ⟨children', hrs⟩ := ih
        (v := { v with vt := { v.vt with children := children }, state := record v.state r }) ha hp
      refine ⟨children', ?_⟩
      rw [List.flatMap_cons, MatchTree.calls_append, hr]
      exact hrs

/-! ## A message in the tree -/

theorem addRootItems_other {type : NodeType} (h : type ≠ .dnsAnswer) :
    addRootItems type [consPatDnsAnswer1, consPatDnsAnswer2] =
      ([consPatDnsAnswer1, consPatDnsAnswer2], []) := by
  have h' : ¬ NodeType.dnsAnswer = type := fun e => h e.symm
  simp [addRootItems, consPatDnsAnswer1, consPatDnsAnswer2, PatNode.type, h']

/-- Any node with something in it that leaves the states of the patterns as they are. -/
theorem node_calls {type : NodeType} {inner : List Dns.TreeCall} (active : List PatState)
    {state : MatchDnsAnswer} (ha : v.vt.active = [])
    (hp : v.patRoots = [consPatDnsAnswer1, consPatDnsAnswer2])
    (hroots : addRootItems type v.patRoots = (v.patRoots, active))
    (hopen : ∀ st ∈ active, st.nextChild.isSome ∧ st.node.parent = none)
    (hinner : ∀ w : MatchTree MatchDnsAnswer, w.vt.active = active → w.patRoots = v.patRoots →
      w.state = v.state → ∃ children, w.calls callbacks inner =
        some { w with vt := { w.vt with children := children }, state := state }) :
    ∃ children, v.calls callbacks (.push type :: inner ++ [.pop type]) =
      some { v with vt := { v.vt with children := children }, state := state } := by
  obtain ⟨⟨ty, text, data, cs, act⟩, vs, roots, topBarrier, err, st⟩ := v
  cases ha
  simp only at hp hroots hinner
  let w : MatchTree MatchDnsAnswer :=
    ⟨⟨type, [], none, [], active⟩, ⟨ty, text, data, cs, []⟩ :: vs, roots, topBarrier + 1, err, st⟩
  have hpush : MatchTree.call callbacks
      ⟨⟨ty, text, data, cs, []⟩, vs, roots, topBarrier, err, st⟩ (.push type) = some w := by
    simp [MatchTree.call, MatchTree.push, advance, hroots, w]
  obtain ⟨children, hw⟩ := hinner w rfl rfl rfl
  have hlist : active.filter (fun st => st.nextChild.isNone && st.node.node.onMatch) = [] := by
    rw [List.filter_eq_nil_iff]
    intro st hst
    obtain ⟨next, hnext⟩ := Option.isSome_iff_exists.mp (hopen st hst).1
    simp [hnext]
  have hup : (active.filterMap fun st => st.node.parent.map fun p => (⟨p, st.node.next⟩ : PatState)) = [] := by
    rw [List.filterMap_eq_nil_iff]
    intro st hst
    rw [(hopen st hst).2]
    rfl
  refine ⟨cs ++ [.mk type [] none children], ?_⟩
  rw [List.cons_append, MatchTree.calls_cons, hpush, Option.bind_some, MatchTree.calls_append, hw]
  simp [MatchTree.calls, MatchTree.call, MatchTree.pop, MatchTree.onMatchList, MatchTree.execute, hlist,
    hup, w, MatchTree.top]

/-- What a section does to the sets. -/
def sectionEffect (sec : Section) (rs : List Record) (m : MatchDnsAnswer) : MatchDnsAnswer :=
  if sec.tree = .dnsAnswer then rs.foldl record m else m

theorem section_calls (sec : Section) {rs : List Record} (hcount : sec.count = 0 → rs = [])
    (ha : v.vt.active = []) (hp : v.patRoots = [consPatDnsAnswer1, consPatDnsAnswer2]) :
    ∃ children, v.calls callbacks (sec.calls rs) =
      some { v with vt := { v.vt with children := children }, state := sectionEffect sec rs v.state } := by
  unfold Section.calls
  split
  · next h =>
      have : sectionEffect sec rs v.state = v.state := by
        rw [hcount h, sectionEffect]
        split <;> rfl
      rw [this]
      exact ⟨v.vt.children, rfl⟩
  · by_cases htree : sec.tree = .dnsAnswer
    · rw [sectionEffect, if_pos htree, htree]
      refine node_calls answerStates ha hp (by rw [hp]; rfl) ?_ ?_
      · intro st hst
        rcases List.mem_cons.mp hst with rfl | hst
        · exact ⟨rfl, rfl⟩
        · cases List.mem_singleton.mp hst
          exact ⟨rfl, rfl⟩
      · intro w hw hroots hstate
        obtain ⟨children, h⟩ := records_answer rs hw (hroots.trans hp)
        exact ⟨children, by rw [h, hstate]⟩
    · rw [sectionEffect, if_neg htree]
      refine node_calls [] ha hp (by rw [hp]; exact addRootItems_other htree) (by simp) ?_
      intro w hw hroots hstate
      obtain ⟨children, h⟩ := records_quiet rs hw (hroots.trans hp)
      exact ⟨children, by rw [h, ← hstate]⟩

theorem message_calls (sects : Sections) (m : Message)
    (hqd : sects.qd.count = 0 → m.qd = []) (han : sects.an.count = 0 → m.an = [])
    (hns : sects.ns.count = 0 → m.ns = []) (har : sects.ar.count = 0 → m.ar = [])
    (ha : v.vt.active = []) (hp : v.patRoots = [consPatDnsAnswer1, consPatDnsAnswer2]) :
    ∃ children, v.calls callbacks (m.calls sects) =
      some { v with
        vt := { v.vt with children := children }
        state := sectionEffect sects.ar m.ar (sectionEffect sects.ns m.ns
          (sectionEffect sects.an m.an (sectionEffect sects.qd m.qd v.state))) } := by
  refine node_calls [] ha hp (by rw [hp]; exact addRootItems_other (by decide)) (by simp) ?_
  intro w hw hroots hstate
  rw [hp] at hroots
  obtain ⟨c₁, h₁⟩ := section_calls sects.qd hqd hw hroots
  obtain ⟨c₂, h₂⟩ := section_calls sects.an han
    (v := { w with vt := { w.vt with children := c₁ }, state := sectionEffect sects.qd m.qd w.state }) hw hroots
  obtain ⟨c₃, h₃⟩ := section_calls sects.ns hns
    (v := { w with
      vt := { w.vt with children := c₂ }
      state := sectionEffect sects.an m.an (sectionEffect sects.qd m.qd w.state) }) hw hroots
  obtain ⟨c₄, h₄⟩ := section_calls sects.ar har
    (v := { w with
      vt := { w.vt with children := c₃ }
      state := sectionEffect sects.ns m.ns
        (sectionEffect sects.an m.an (sectionEffect sects.qd m.qd w.state)) }) hw hroots
  refine ⟨c₄, ?_⟩
  rw [MatchTree.calls_append, MatchTree.calls_append, MatchTree.calls_append, h₁, Option.bind_some, h₂,
    Option.bind_some, h₃, Option.bind_some, h₄, hstate]

/-! ## The reading -/

variable {pkt : Packet} {sect : Sections}

theorem readMany_zero {read : List ℕ → ℕ → Reading} {n : ℕ} (h : n = 0) (st : Option (ℕ × List ℕ)) :
    (readMany read n st).1 = [] := by
  rw [h]
  rfl

/-- At the end of the packet nothing is read. -/
def AtEnd (pkt : Packet) (st : Option (ℕ × List ℕ)) : Prop := ∀ p names, st = some (p, names) → p = pkt.length

theorem readMany_end {read : List ℕ → ℕ → Reading} (hend : ∀ names, read names pkt.length = none)
    (n : ℕ) {st : Option (ℕ × List ℕ)} (h : AtEnd pkt st) :
    (readMany read n st).1 = [] ∧ AtEnd pkt (readMany read n st).2 := by
  cases n with
  | zero => exact ⟨rfl, h⟩
  | succ n =>
      cases st with
      | none => exact ⟨rfl, h⟩
      | some st =>
          obtain ⟨p, names⟩ := st
          cases h p names rfl
          simp [readMany, hend, AtEnd]

theorem readQuestion_end (names : List ℕ) : readQuestion pkt names pkt.length = none := by
  simp [readQuestion, name]

theorem readRecord_end (names : List ℕ) : readRecord pkt names pkt.length = none := by
  simp [readRecord, name]

/-- The records of the answer section, and only those, change the sets. -/
theorem message_effect (m : MatchDnsAnswer) :
    sectionEffect (header pkt sect).2.ar (readMessage pkt sect).ar
      (sectionEffect (header pkt sect).2.ns (readMessage pkt sect).ns
        (sectionEffect (header pkt sect).2.an (readMessage pkt sect).an
          (sectionEffect (header pkt sect).2.qd (readMessage pkt sect).qd m))) =
      (readMessage pkt sect).an.foldl record m := by
  by_cases hlen : 12 ≤ pkt.length
  · have h6 : 4 + 2 ≤ pkt.length := by omega
    have h8 : 6 + 2 ≤ pkt.length := by omega
    have h10 : 8 + 2 ≤ pkt.length := by omega
    have h12 : 10 + 2 ≤ pkt.length := by omega
    simp [sectionEffect, header, h6, h8, h10, h12]
  · have hstart : AtEnd pkt (some ((header pkt sect).1, [])) := by
      rintro p names ⟨⟩
      exact Nat.min_eq_right (by omega)
    obtain ⟨hqd, h₁⟩ := readMany_end readQuestion_end (header pkt sect).2.qd.count hstart
    obtain ⟨han, h₂⟩ := readMany_end readRecord_end (header pkt sect).2.an.count h₁
    obtain ⟨hns, h₃⟩ := readMany_end readRecord_end (header pkt sect).2.ns.count h₂
    obtain ⟨har, -⟩ := readMany_end readRecord_end (header pkt sect).2.ar.count h₃
    simp [sectionEffect, readMessage, hqd, han, hns, har]

/-- The names of a record are C strings, and an address has four bytes. -/
def Fine : Record → Prop
  | .a name addr => cstr name = name ∧ addr.length = 4
  | .cname name target => cstr name = name ∧ cstr target = target
  | _ => True

theorem cstr_cstr (s : List UInt8) : cstr (cstr s) = cstr s := by
  apply cstr_eq_self
  intro c hc
  simpa using List.mem_takeWhile_imp hc

theorem cstr_nameText (names : List ℕ) (s : ℕ) : cstr (nameText pkt names s) = nameText pkt names s := by
  unfold nameText
  split
  · exact cstr_cstr _
  · rfl

theorem readRecord_fine {names names' : List ℕ} {p p' : ℕ} {r : Record}
    (h : readRecord pkt names p = some (r, p', names')) : Fine r := by
  have htarget {p : ℕ} {names : List ℕ} {f : Text → Record}
      (h : readTarget pkt names p f = some (r, p', names')) (hf : ∀ t, cstr t = t → Fine (f t)) : Fine r := by
    unfold readTarget at h
    split at h <;> cases h
    exact hf _ (cstr_nameText _ _)
  unfold readRecord at h
  split at h
  · unfold readAfterName at h
    split at h
    · cases h
    split at h
    · split at h <;> cases h
      next hlen => exact ⟨cstr_nameText _ _, by rw [List.length_take, List.length_drop]; omega⟩
    · exact htarget h fun _ _ => trivial
    · exact htarget h fun t ht => ⟨cstr_nameText _ _, ht⟩
    · exact htarget h fun _ _ => trivial
    · exact htarget h fun _ _ => trivial
    · split at h <;> cases h
      trivial
    · split at h <;> cases h
      trivial
  · cases h

theorem readMany_fine (n : ℕ) : ∀ st, ∀ r ∈ (readMany (readRecord pkt) n st).1, Fine r := by
  induction n with
  | zero => simp [readMany]
  | succ n ih =>
      intro st r hr
      cases st with
      | none => simp [readMany] at hr
      | some st =>
          obtain ⟨p, names⟩ := st
          simp only [readMany] at hr
          split at hr
          · simp at hr
          · next h =>
              rcases List.mem_cons.mp hr with rfl | hr
              · exact readRecord_fine h
              · exact ih _ r hr

/-! ## The fold -/

/-- The names to look for, the addresses reported, and the reports in order. -/
structure Redirects where
  lookup : Finset Text
  reported : Finset (List UInt8)
  reports : List (List UInt8)

def Redirects.record (s : Redirects) : Record → Redirects
  | .a n ip =>
      if n ∈ s.lookup ∧ ip ∉ s.reported then
        { s with reported := insert ip s.reported, reports := s.reports ++ [ip] }
      else s
  | .cname n c => if n ∈ s.lookup then { s with lookup := insert c s.lookup } else s
  | _ => s

/-- The sets of `MatchDnsAnswer` are those of the fold. -/
structure Simulates (m : MatchDnsAnswer) (s : Redirects) : Prop where
  lookup : ∀ name, name ∈ m.lookupSet ↔ name ∈ s.lookup
  reported : ∀ addr : List UInt8, addr.length = 4 → (ip addr ∈ m.ipsAdded ↔ addr ∈ s.reported)
  reports : m.matchedDns = s.reports.map toa

theorem ip_sum (a b c d : UInt8) :
    ip [a, b, c, d] = a.toNat + b.toNat * 2 ^ 8 + c.toNat * 2 ^ 16 + d.toNat * 2 ^ 24 := by
  have ha := a.toNat_lt
  have hb := b.toNat_lt
  have hc := c.toNat_lt
  have h₁ : b.toNat <<< 8 + a.toNat = b.toNat <<< 8 ||| a.toNat := Nat.shiftLeft_add_eq_or_of_lt ha _
  have h₂ : c.toNat <<< 16 + (b.toNat <<< 8 + a.toNat) = c.toNat <<< 16 ||| (b.toNat <<< 8 + a.toNat) :=
    Nat.shiftLeft_add_eq_or_of_lt (by rw [Nat.shiftLeft_eq]; omega) _
  have h₃ : d.toNat <<< 24 + (c.toNat <<< 16 + (b.toNat <<< 8 + a.toNat)) =
      d.toNat <<< 24 ||| (c.toNat <<< 16 + (b.toNat <<< 8 + a.toNat)) :=
    Nat.shiftLeft_add_eq_or_of_lt (by rw [Nat.shiftLeft_eq, Nat.shiftLeft_eq]; omega) _
  have hor : ip [a, b, c, d] = d.toNat <<< 24 + (c.toNat <<< 16 + (b.toNat <<< 8 + a.toNat)) := by
    have hip : ip [a, b, c, d] = a.toNat ||| b.toNat <<< 8 ||| c.toNat <<< 16 ||| d.toNat <<< 24 := by
      simp [ip]
    rw [h₃, h₂, h₁, hip, Nat.or_comm _ (d.toNat <<< 24), Nat.or_comm _ (c.toNat <<< 16),
      Nat.or_comm a.toNat]
  rw [hor]
  simp only [Nat.shiftLeft_eq]
  omega

theorem ip_inj {x y : List UInt8} (hx : x.length = 4) (hy : y.length = 4) (h : ip x = ip y) : x = y := by
  match x, hx, y, hy with
  | [a, b, c, d], _, [a', b', c', d'], _ =>
      rw [ip_sum, ip_sum] at h
      have := a.toNat_lt
      have := b.toNat_lt
      have := c.toNat_lt
      have := d.toNat_lt
      have := a'.toNat_lt
      have := b'.toNat_lt
      have := c'.toNat_lt
      have := d'.toNat_lt
      have ha : a = a' := UInt8.toNat_inj.mp (by omega)
      have hb : b = b' := UInt8.toNat_inj.mp (by omega)
      have hc : c = c' := UInt8.toNat_inj.mp (by omega)
      have hd : d = d' := UInt8.toNat_inj.mp (by omega)
      rw [ha, hb, hc, hd]

theorem Simulates.record {m : MatchDnsAnswer} {s : Redirects} (h : Simulates m s) {r : Record}
    (hr : Fine r) : Simulates (Sniff.record m r) (s.record r) := by
  cases r with
  | a n addr =>
      obtain ⟨hn, hlen⟩ := hr
      have hname : m.find n = true ↔ n ∈ s.lookup := by simp [MatchDnsAnswer.find, hn, h.lookup]
      have hip := h.reported addr hlen
      simp only [Sniff.record, MatchDnsAnswer.answerA, Redirects.record, hname, hip]
      split_ifs with hlookup hseen hnew hnew
      · exact absurd hseen hnew.2
      · exact h
      · refine ⟨h.lookup, fun x hx => ?_, ?_⟩
        · rw [List.mem_cons, Finset.mem_insert, h.reported x hx]
          exact or_congr_left ⟨ip_inj hx hlen, congrArg ip⟩
        · simp [h.reports]
      · exact absurd ⟨hlookup, hseen⟩ hnew
      · exact absurd ‹_ ∧ _›.1 hlookup
      · exact h
  | cname n c =>
      obtain ⟨hn, hc⟩ := hr
      have hname : m.find n = true ↔ n ∈ s.lookup := by simp [MatchDnsAnswer.find, hn, h.lookup]
      have htarget : m.find c = true ↔ c ∈ s.lookup := by simp [MatchDnsAnswer.find, hc, h.lookup]
      simp only [Sniff.record, MatchDnsAnswer.answerCname, Redirects.record, hname, htarget]
      split_ifs with hlookup hold
      · rwa [Finset.insert_eq_of_mem hold]
      · refine ⟨fun x => ?_, h.reported, h.reports⟩
        rw [List.mem_cons, Finset.mem_insert, h.lookup, hc]
      · exact h
  | _ => exact h

theorem Simulates.records {rs : List Record} : ∀ {m : MatchDnsAnswer} {s : Redirects}, Simulates m s →
    (∀ r ∈ rs, Fine r) → Simulates (rs.foldl Sniff.record m) (rs.foldl Redirects.record s) := by
  induction rs with
  | nil => exact fun h _ => h
  | cons r rs ih =>
      exact fun h hr => ih (h.record (hr r List.mem_cons_self)) fun x hx => hr x (List.mem_cons_of_mem _ hx)

/-! ## A sequence of responses -/

/-- A response, with what is in the members of the parser and on its stack. -/
structure Response where
  pkt : Packet
  sect : Sections
  bufs : Buf → List UInt8

/-- At most 32 labels, and every name that is expanded has at most 255 bytes. -/
def Response.Fits (r : Response) : Prop :=
  (namesOf r.pkt (data r.pkt r.sect)).length ≤ 32 ∧
    ∀ call ∈ copies r.pkt [] (data r.pkt r.sect), ∃ ls good,
      Expands r.pkt call.1 call.2 ls good ∧ (text ls).length ≤ 255

/-- The records of the answer section. -/
noncomputable def Response.answers (r : Response) : List Record := (readMessage r.pkt r.sect).an

/-- The parser returns with these calls on the tree. -/
def Response.Parsed (r : Response) (tree : List Dns.TreeCall) : Prop := Dns.Parsed r.pkt r.sect r.bufs tree

/-- Where the names fit the parser returns. -/
theorem Response.Fits.parsed {r : Response} (h : r.Fits) : ∃ tree, r.Parsed tree :=
  parsed_of_fits fun call hcall =>
    have ⟨ls, good, hls, _⟩ := h.2 call hcall
    ⟨ls, good, hls⟩

theorem response_calls (r : Response) {tree : List Dns.TreeCall} (h : r.Parsed tree) (ha : v.vt.active = [])
    (hp : v.patRoots = [consPatDnsAnswer1, consPatDnsAnswer2]) : ∃ children,
      v.calls callbacks tree =
        some { v with vt := { v.vt with children := children }, state := r.answers.foldl record v.state } := by
  rw [h.message, Response.answers, ← message_effect]
  exact message_calls _ _ (readMany_zero · _) (readMany_zero · _) (readMany_zero · _)
    (readMany_zero · _) ha hp

theorem responses_calls {responses : List Response} {trees : List (List Dns.TreeCall)}
    (h : List.Forall₂ Response.Parsed responses trees) : ∀ {v : MatchTree MatchDnsAnswer},
    v.vt.active = [] → v.patRoots = [consPatDnsAnswer1, consPatDnsAnswer2] → ∃ children,
      v.calls callbacks trees.flatten = some { v with
        vt := { v.vt with children := children }
        state := (responses.flatMap Response.answers).foldl record v.state } := by
  induction h with
  | nil => exact fun {v} _ _ => ⟨v.vt.children, rfl⟩
  | @cons r tree _ trees hr _ ih =>
      intro v ha hp
      obtain ⟨children, h₁⟩ := response_calls r hr ha hp
      obtain ⟨children', h₂⟩ := ih (v := { v with
        vt := { v.vt with children := children }
        state := r.answers.foldl record v.state }) ha hp
      refine ⟨children', ?_⟩
      rw [List.flatten_cons, MatchTree.calls_append, h₁, Option.bind_some, h₂, List.flatMap_cons,
        List.foldl_append]

/-- Whatever responses are parsed, each of them is parsed to its end, and `matchedDns` is called as the
fold over the records of the answer sections reports. -/
theorem redirects_match (proxyHostNames : List Text) (responses : List Response)
    (h : ∀ r ∈ responses, r.Fits) :
    (∀ r ∈ responses, ∃ tree, r.Parsed tree) ∧
    ∀ trees, List.Forall₂ Response.Parsed responses trees →
      ∃ v, (configureContext proxyHostNames).calls callbacks trees.flatten = some v ∧
        v.state.matchedDns =
          ((responses.flatMap Response.answers).foldl Redirects.record
            ⟨proxyHostNames.toFinset, ∅, []⟩).reports.map toa := by
  constructor
  · exact fun r hr => (h r hr).parsed
  · intro trees htrees
    obtain ⟨children, hcalls⟩ := responses_calls htrees (v := configureContext proxyHostNames) rfl rfl
    refine ⟨_, hcalls, ?_⟩
    have hstart : Simulates (configureContext proxyHostNames).state ⟨proxyHostNames.toFinset, ∅, []⟩ :=
      ⟨fun name => by simp [configureContext, initTree], fun addr _ => by simp [configureContext, initTree], rfl⟩
    refine (hstart.records ?_).reports
    intro r hr
    obtain ⟨response, -, hmem⟩ := List.mem_flatMap.mp hr
    exact readMany_fine _ _ r hmem

/-- One A record, 1.2.3.4, for the name `a`. -/
def oneAnswer : Response where
  pkt := [0, 0, 0, 0, 0, 0, 0, 1, 0, 0, 0, 0, 1, 97, 0, 0, 1, 0, 1, 0, 0, 0, 0, 0, 4, 1, 2, 3, 4]
  sect := noSections
  bufs _ := []

theorem oneAnswer_fits : oneAnswer.Fits := by
  refine ⟨by decide, ?_⟩
  have hcopies : copies oneAnswer.pkt [] (data oneAnswer.pkt oneAnswer.sect) = [([], 12)] := by decide
  rw [hcopies]
  intro call hcall
  cases List.mem_singleton.mp hcall
  have hname : Parts oneAnswer.pkt 12 [[97]] none :=
    .part (c := 1) rfl (by decide) (by decide) (by decide) (.zero rfl)
  exact ⟨[[97]], true, .zero hname, by decide⟩

theorem redirects_match_one : ∃ trees, List.Forall₂ Response.Parsed [oneAnswer] trees ∧
    ∃ v, (configureContext [[97]]).calls callbacks trees.flatten = some v ∧
      v.state.matchedDns =
        (([oneAnswer].flatMap Response.answers).foldl Redirects.record
          ⟨[[97]].toFinset, ∅, []⟩).reports.map toa := by
  obtain ⟨hparsed, hreports⟩ :=
    redirects_match [[97]] [oneAnswer] fun _ hr => List.mem_singleton.mp hr ▸ oneAnswer_fits
  obtain ⟨tree, htree⟩ := hparsed oneAnswer (List.mem_singleton.mpr rfl)
  exact ⟨[tree], .cons htree .nil, hreports _ (.cons htree .nil)⟩

end Netp.Sniff
