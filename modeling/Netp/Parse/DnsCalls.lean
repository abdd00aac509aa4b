import Netp.Parse.DnsBounds

/-! # The calls on the tree, record by record

`calls` is what the actions of a packet do to the tree when every name has the text it stands for.
`readRecord` reads a record with its names, on its own, and the calls of the parser are those of the
records that are read (`message_calls`). As in the machine, `rdlength` counts only for the types it
does not know, and the names so far are the positions a pointer may lead to.
-/

namespace Netp.Parse.Dns
open Netp.Lib
set_option autoImplicit false
variable {pkt : Packet} {sect : Sections} {bufs : Buf → List UInt8} {names names' : List ℕ}
  {p q s start n m : ℕ} {ls : List (List UInt8)} {nb : List UInt8} {good : Bool} {c c' : Config}
  {as : List Action} {r : ℤ}

/-! ## The text of a name -/

open Classical in
/-- The text of the name at a position as a C string, empty where it ends in a lost pointer. -/
noncomputable def nameText (pkt : Packet) (names : List ℕ) (s : ℕ) : Text :=
  if h : ∃ ls, Expands pkt names s ls true then cstr (text h.choose) else []

theorem Expands.returned (h : Expands pkt names s ls good) (hn : copyName pkt names s n = .ret r nb) :
    .ret r nb = lastTurn good (text ls) := by
  obtain ⟨m, e, -, hlast⟩ := h.copies s (rfl : copyName pkt names s 0 = .next s [])
  rw [written_text h.ne_nil] at hlast
  have hm : ¬ ∃ p, Visits pkt names s (m + 1) p := by
    rintro ⟨p, nb', hp⟩
    rw [hlast] at hp
    cases good <;> cases hp
  calc .ret r nb = copyName pkt names s n := hn.symm
    _ = copyName pkt names s (n + (m + 1)) := (copyName_stays (by simp [Visits, hn]) _).symm
    _ = copyName pkt names s (m + 1 + n) := by rw [Nat.add_comm]
    _ = lastTurn good (text ls) := by rw [copyName_stays hm, hlast]

theorem returned_text (hk : Known pkt names) (hs : Scanned pkt s)
    (hn : copyName pkt names s n = .ret r nb) : cstr nb = nameText pkt names s := by
  unfold nameText
  split
  · next h =>
      have hlast := h.choose_spec.returned hn
      simp only [lastTurn, if_true, Turn.ret.injEq] at hlast
      rw [hlast.2, cstr_concat_zero]
  · next h =>
      obtain ⟨ls, good, hls⟩ := Returns.expands hk hs ⟨n, r, nb, hn⟩
      cases good with
      | true => exact absurd ⟨ls, hls⟩ h
      | false =>
          have hlast := hls.returned hn
          simp only [lastTurn, Bool.false_eq_true, if_false, Turn.ret.injEq] at hlast
          rw [hlast.2]
          rfl

/-! ## The calls of the actions -/

/-- The calls on the tree, with the text of each buffer. -/
noncomputable def calls (pkt : Packet) : List ℕ → (Buf → Text) → List Action → List TreeCall
  | _, _, [] => []
  | names, bufs, .copyName nb ptr :: as =>
      calls pkt names (Function.update bufs nb (nameText pkt names ptr)) as
  | names, bufs, .register s :: as => calls pkt (names ++ registered s 0 (pkt.drop s)) bufs as
  | names, bufs, .push type :: as => .push type :: calls pkt names bufs as
  | names, bufs, .setText nb :: as => .setText (bufs nb) :: calls pkt names bufs as
  | names, bufs, .setData data :: as => .setData data :: calls pkt names bufs as
  | names, bufs, .pop type :: as => .pop type :: calls pkt names bufs as

/-- The texts in the buffers once the call at work has returned. -/
noncomputable def Config.texts (pkt : Packet) (c : Config) : Buf → Text :=
  match c.copying with
  | none => fun b => cstr (c.bufs b)
  | some k => Function.update (fun b => cstr (c.bufs b)) k.buf (nameText pkt c.names k.start)

/-- The calls made and those to come. -/
noncomputable def Config.allCalls (pkt : Packet) (c : Config) : List TreeCall :=
  c.tree ++ calls pkt c.names (c.texts pkt) c.todo

theorem Inv.allCalls_step {acts : List Action} (ha : ∀ a ∈ acts, a.Scanned pkt) (h : Inv pkt acts c)
    (hs : c.step pkt = some c') : c'.allCalls pkt = c.allCalls pkt := by
  obtain ⟨todo, copying, names, bufs, tree⟩ := c
  cases copying with
  | some k =>
      obtain ⟨buf, start, turn⟩ := k
      cases turn with
      | next ptr nb =>
          cases hs
          rfl
      | ret r nb =>
          obtain ⟨hcall, n, hn⟩ := h.call _ rfl
          obtain ⟨hk, hscan⟩ := copies_scanned ha hcall
          have htext := returned_text hk hscan hn.symm
          cases hs
          have hbufs : (fun b => cstr (Function.update bufs buf nb b)) =
              Function.update (fun b => cstr (bufs b)) buf (nameText pkt names start) := by
            funext b
            by_cases hb : b = buf
            · subst hb
              simpa using htext
            · simp [hb]
          simp only [Config.allCalls, Config.texts, hbufs]
      | outside => cases hs
  | none =>
      cases todo with
      | nil => cases hs
      | cons a as =>
          cases a <;>
            cases hs <;> simp [Config.allCalls, Config.texts, calls]

/-- The parser has returned, having made these calls. -/
def Parsed (pkt : Packet) (sect : Sections) (bufs : Buf → List UInt8) (tree : List TreeCall) : Prop :=
  ∃ c, Reach (parsing pkt sect bufs) c ∧ c.todo = [] ∧ c.copying = none ∧ c.tree = tree

theorem Parsed.calls {tree : List TreeCall} (h : Parsed pkt sect bufs tree) :
    tree = calls pkt [] (fun b => cstr (bufs b)) (data pkt sect) := by
  obtain ⟨c, hc, htodo, hnone, rfl⟩ := h
  have hall : Inv pkt (data pkt sect) c ∧
      c.allCalls pkt = Dns.calls pkt [] (fun b => cstr (bufs b)) (data pkt sect) := by
    refine ReachIf.invariant (M := parsing pkt sect bufs)
      (I := fun c => Inv pkt (data pkt sect) c ∧
        c.allCalls pkt = Dns.calls pkt [] (fun b => cstr (bufs b)) (data pkt sect)) ⟨Inv.reach .init, rfl⟩ ?_ hc
    rintro s a s' ⟨hinv, he⟩ - hs
    exact ⟨hinv.step hs, (hinv.allCalls_step (data_scanned pkt sect) hs).trans he⟩
  rw [← hall.2, Config.allCalls, htodo]
  simp [Dns.calls]

/-! ## Reading a message -/

/-- A record, as far as the tree shows it. -/
inductive Record
  | a (name : Text) (addr : List UInt8)
  | aaaa
  | cname (name target : Text)
  | other

def Record.calls : Record → List TreeCall
  | a name addr => [.push .dnsRrA, .push .dnsName, .setText name, .pop .dnsName,
      .push .dnsAddr, .setData addr, .pop .dnsAddr, .pop .dnsRrA]
  | aaaa => [.push .dnsRrAAAA, .pop .dnsRrAAAA]
  | cname name target => [.push .dnsRrCname, .push .dnsName, .setText name, .pop .dnsName,
      .push .dnsName, .setText target, .pop .dnsName, .pop .dnsRrCname]
  | other => []

/-- A record, the position after it, and the positions registered by then. -/
abbrev Reading := Option (Record × ℕ × List ℕ)

/-- The name in the data of a record. -/
noncomputable def readTarget (pkt : Packet) (names : List ℕ) (p : ℕ) (record : Text → Record) : Reading :=
  match name p 0 (pkt.drop p) with
  | .final q => some (record (nameText pkt names p), q, names ++ registered p 0 (pkt.drop p))
  | _ => none

/-- Type, class, ttl, rdlength and data of a record with this owner. -/
noncomputable def readAfterName (pkt : Packet) (names : List ℕ) (owner : Text) (q : ℕ) : Reading :=
  if pkt.length < q + 10 then none
  else match rrType (word pkt q) with
    | .a => if q + 14 ≤ pkt.length then some (.a owner ((pkt.drop (q + 10)).take 4), q + 14, names) else none
    | .ns => readTarget pkt names (q + 10) fun _ => .other
    | .cname => readTarget pkt names (q + 10) fun target => .cname owner target
    | .ptr => readTarget pkt names (q + 10) fun _ => .other
    | .mx => readTarget pkt names (q + 12) fun _ => .other
    | .aaaa => if q + 26 ≤ pkt.length then some (.aaaa, q + 26, names) else none
    | .unknown =>
      if q + 10 + word pkt (q + 8) ≤ pkt.length then some (.other, q + 10 + word pkt (q + 8), names)
      else none

noncomputable def readRecord (pkt : Packet) (names : List ℕ) (p : ℕ) : Reading :=
  match name p 0 (pkt.drop p) with
  | .final q =>
      readAfterName pkt (names ++ registered p 0 (pkt.drop p)) (nameText pkt names p) q
  | _ => none

def readQuestion (pkt : Packet) (names : List ℕ) (p : ℕ) : Reading :=
  match name p 0 (pkt.drop p) with
  | .final q => if q + 4 ≤ pkt.length then some (.other, q + 4, names ++ registered p 0 (pkt.drop p)) else none
  | _ => none

/-- Up to `count` records. It is at `none` once a record was not complete. -/
def readMany (read : List ℕ → ℕ → Reading) : ℕ → Option (ℕ × List ℕ) → List Record × Option (ℕ × List ℕ)
  | 0, st => ([], st)
  | _ + 1, none => ([], none)
  | count + 1, some (p, names) =>
      match read names p with
      | none => ([], none)
      | some (r, p', names') =>
          let rest := readMany read count (some (p', names'))
          (r :: rest.1, rest.2)

/-- The records of the sections. There is nothing of a question in the tree. -/
structure Message where
  qd : List Record
  an : List Record
  ns : List Record
  ar : List Record

noncomputable def readMessage (pkt : Packet) (sect : Sections) : Message :=
  let h := header pkt sect
  let qd := readMany (readQuestion pkt) h.2.qd.count (some (h.1, []))
  let an := readMany (readRecord pkt) h.2.an.count qd.2
  let ns := readMany (readRecord pkt) h.2.ns.count an.2
  let ar := readMany (readRecord pkt) h.2.ar.count ns.2
  ⟨qd.1, an.1, ns.1, ar.1⟩

def Section.calls (sect : Section) (records : List Record) : List TreeCall :=
  if sect.count = 0 then []
  else .push sect.tree :: records.flatMap Record.calls ++ [.pop sect.tree]

def Message.calls (sects : Sections) (m : Message) : List TreeCall :=
  .push .dnsPacket ::
    (sects.qd.calls m.qd ++ sects.an.calls m.an ++ sects.ns.calls m.ns ++ sects.ar.calls m.ar) ++
    [.pop .dnsPacket]

/-! ## The machines against the reading -/

/-- What a machine has done, against the record that is read there. -/
def Agrees (pkt : Packet) (names : List ℕ) (bufs : Buf → Text) (r : Option ℕ × List Action) :
    Reading → Prop
  | some (record, p, names') => r.1 = some p ∧ ∃ bufs', ∀ as,
      calls pkt names bufs (r.2 ++ as) = record.calls ++ calls pkt names' bufs' as
  | none => (r.1 = none ∨ r.1 = some pkt.length) ∧ ∃ names' bufs', ∀ as,
      calls pkt names bufs (r.2 ++ as) = calls pkt names' bufs' as

section Machines
variable {texts : Buf → Text}

theorem calls_nameEnd (b : Buf) : calls pkt names texts (nameEnd (some b) p ++ as) =
    calls pkt (names ++ registered p 0 (pkt.drop p)) (Function.update texts b (nameText pkt names p)) as := by
  simp [nameEnd, calls]

theorem calls_nameEnd_none : calls pkt names texts (nameEnd none p ++ as) =
    calls pkt (names ++ registered p 0 (pkt.drop p)) texts as := by
  simp [nameEnd, calls]

/-- After an owner name in `namebuf1`, the rest of the record goes on from there. -/
theorem Agrees.owner {r : Option ℕ × List Action} {reading : Reading} (b : Buf)
    (h : Agrees pkt (names ++ registered p 0 (pkt.drop p))
      (Function.update texts b (nameText pkt names p)) r reading) :
    Agrees pkt names texts (r.1, nameEnd (some b) p ++ r.2) reading := by
  cases reading with
  | none =>
      obtain ⟨hr, names', bufs', h⟩ := h
      exact ⟨hr, names', bufs', fun as => by rw [List.append_assoc, calls_nameEnd, h]⟩
  | some t =>
      obtain ⟨hr, bufs', h⟩ := h
      exact ⟨hr, bufs', fun as => by rw [List.append_assoc, calls_nameEnd, h]⟩

theorem Agrees.gone {p : Option ℕ} (hp : p = none ∨ p = some pkt.length) :
    Agrees pkt names texts (p, []) none :=
  ⟨hp, names, texts, fun _ => rfl⟩

theorem address_agrees (record : List UInt8 → Record) {tree : List UInt8 → List Action} {len : ℕ}
    (h : ∀ l as, calls pkt names texts (tree l ++ as) = (record l).calls ++ calls pkt names texts as) :
    Agrees pkt names texts (address pkt len p tree)
      (if p + len ≤ pkt.length then some (record ((pkt.drop p).take len), p + len, names) else none) := by
  unfold address
  split
  · exact ⟨rfl, texts, h _⟩
  · exact .gone (.inr rfl)

theorem rdataName_agrees {record : Text → Record} {buf : Option Buf} {tree : List Action}
    (h : ∃ bufs', ∀ as, calls pkt names texts (nameEnd buf p ++ (tree ++ as)) =
      (record (nameText pkt names p)).calls ++
        calls pkt (names ++ registered p 0 (pkt.drop p)) bufs' as) :
    Agrees pkt names texts (rdataName pkt buf p tree) (readTarget pkt names p record) := by
  unfold rdataName readTarget
  cases name p 0 (pkt.drop p) with
  | error => exact .gone (.inl rfl)
  | more => exact .gone (.inr rfl)
  | final q =>
      obtain ⟨bufs', h⟩ := h
      exact ⟨rfl, bufs', fun as => by rw [List.append_assoc, h]⟩

theorem afterName_agrees : Agrees pkt names texts (afterName pkt q)
    (readAfterName pkt names (texts .namebuf1) q) := by
  unfold afterName readAfterName
  split
  · exact .gone (.inr rfl)
  cases rrType (word pkt q) with
  | a => exact address_agrees (.a _) fun l as => by simp [calls, Record.calls]
  | ns => exact rdataName_agrees ⟨texts, fun as => by simp [calls_nameEnd_none, Record.calls]⟩
  | cname => exact rdataName_agrees ⟨_, fun as => by simp [calls_nameEnd, calls, Record.calls]; rfl⟩
  | ptr => exact rdataName_agrees ⟨_, fun as => by simp [calls_nameEnd, Record.calls]; rfl⟩
  | mx => exact rdataName_agrees ⟨texts, fun as => by simp [calls_nameEnd_none, Record.calls]⟩
  | aaaa => exact address_agrees (fun _ => .aaaa) fun l as => by simp [calls, Record.calls]
  | unknown =>
      simp only [rrUnknown]
      split
      · next h =>
          rw [if_pos (by omega)]
          exact ⟨rfl, texts, fun as => rfl⟩
      · next h =>
          rw [if_neg (by omega)]
          exact .gone (.inl rfl)

theorem resourceRecord_agrees : Agrees pkt names texts (resourceRecord pkt p) (readRecord pkt names p) := by
  unfold resourceRecord readRecord
  cases name p 0 (pkt.drop p) with
  | error => exact .gone (.inl rfl)
  | more => exact .gone (.inr rfl)
  | final q =>
      let texts' := Function.update texts .namebuf1 (nameText pkt names p)
      have h : Agrees pkt (names ++ registered p 0 (pkt.drop p)) texts' (afterName pkt q)
        (readAfterName pkt _ (texts' .namebuf1) q) := afterName_agrees
      have howner : texts' .namebuf1 = nameText pkt names p := Function.update_self ..
      rw [howner] at h
      exact h.owner .namebuf1

theorem question_agrees : Agrees pkt names texts (question pkt p) (readQuestion pkt names p) := by
  unfold question readQuestion
  cases name p 0 (pkt.drop p) with
  | error => exact .gone (.inl rfl)
  | more => exact .gone (.inr rfl)
  | final q =>
      simp only
      split
      · next h =>
          exact ⟨congrArg some (Nat.min_eq_left h), Function.update texts .namebuf (nameText pkt names p),
            fun as => calls_nameEnd .namebuf⟩
      · next h =>
          refine ⟨.inr (congrArg some (Nat.min_eq_right (by omega))), _,
            Function.update texts .namebuf (nameText pkt names p), fun as => calls_nameEnd .namebuf⟩

/-- The parser and the reading are at one place, or both past the last record. -/
def At (pkt : Packet) (p : Option ℕ) (names : List ℕ) : Option (ℕ × List ℕ) → Prop
  | some (p', names') => p = some p' ∧ names = names'
  | none => p = none ∨ p = some pkt.length

variable {machine : ℕ → Option ℕ × List Action} {read : List ℕ → ℕ → Reading} {st : Option (ℕ × List ℕ)}

theorem items_gone (hend : machine pkt.length = (some pkt.length, [])) (count : ℕ) {p : Option ℕ}
    (hp : p = none ∨ p = some pkt.length) : items machine count p = (p, []) := by
  induction count with
  | zero => rfl
  | succ count ih =>
      rcases hp with rfl | rfl
      · rfl
      · simp [items, hend, ih]

theorem readMany_none (count : ℕ) : readMany read count none = ([], none) := by
  cases count <;> rfl

theorem items_agree (hm : ∀ p names texts, Agrees pkt names texts (machine p) (read names p))
    (hend : machine pkt.length = (some pkt.length, [])) (count : ℕ) :
    ∀ texts {p names st}, At pkt p names st → ∃ names' texts',
      At pkt (items machine count p).1 names' (readMany read count st).2 ∧
      ∀ as, calls pkt names texts ((items machine count p).2 ++ as) =
        (readMany read count st).1.flatMap Record.calls ++ calls pkt names' texts' as := by
  induction count with
  | zero => exact fun texts {p names st} h => ⟨names, texts, h, fun as => rfl⟩
  | succ count ih =>
      intro texts p names st h
      cases st with
      | none =>
          rw [items_gone hend _ h, readMany_none]
          exact ⟨names, texts, h, fun as => rfl⟩
      | some at₀ =>
          obtain ⟨p₀, names₀⟩ := at₀
          obtain ⟨rfl, rfl⟩ := h
          have hagree := hm p₀ names texts
          simp only [items, readMany]
          cases hread : read names p₀ with
          | none =>
              rw [hread] at hagree
              obtain ⟨hp, names', texts', hcalls⟩ := hagree
              simp only [items_gone hend _ hp, List.append_nil]
              exact ⟨names', texts', hp, hcalls⟩
          | some t =>
              obtain ⟨record, p', names'⟩ := t
              rw [hread] at hagree
              obtain ⟨hp, texts', hcalls⟩ := hagree
              have hat : At pkt (machine p₀).1 names' (some (p', names')) := ⟨hp, rfl⟩
              obtain ⟨names'', texts'', hrest, hcalls'⟩ := ih texts' hat
              exact ⟨names'', texts'', hrest, fun as => by simp [hcalls, hcalls']⟩

theorem sectionItems_agree (machine : ℕ → Option ℕ × List Action) (read : List ℕ → ℕ → Reading)
    (texts : Buf → Text) (hm : ∀ p names texts, Agrees pkt names texts (machine p) (read names p))
    (hend : machine pkt.length = (some pkt.length, [])) (sec : Section) {p : Option ℕ}
    (h : At pkt p names st) : ∃ names' texts',
      At pkt (sectionItems machine sec p).1 names' (readMany read sec.count st).2 ∧
      ∀ as, calls pkt names texts ((sectionItems machine sec p).2 ++ as) =
        sec.calls (readMany read sec.count st).1 ++ calls pkt names' texts' as := by
  unfold sectionItems Section.calls
  split
  · next hcount =>
      rw [hcount]
      exact ⟨names, texts, h, fun as => rfl⟩
  · obtain ⟨names', texts', hat, hcalls⟩ := items_agree hm hend sec.count texts h
    exact ⟨names', texts', hat, fun as => by simp [calls, hcalls]⟩

theorem question_end : question pkt pkt.length = (some pkt.length, []) := by
  simp [question, name]

theorem resourceRecord_end : resourceRecord pkt pkt.length = (some pkt.length, []) := by
  simp [resourceRecord, name]

/-- The calls of the parser are those of the records that are read. -/
theorem message_calls (pkt : Packet) (sect : Sections) (texts : Buf → Text) :
    calls pkt [] texts (data pkt sect) = (readMessage pkt sect).calls (header pkt sect).2 := by
  have hstart : At pkt (some (header pkt sect).1) [] (some ((header pkt sect).1, [])) := ⟨rfl, rfl⟩
  obtain ⟨n₁, t₁, hqd, hcalls₁⟩ := sectionItems_agree (question pkt) (readQuestion pkt) texts
    (fun _ _ _ => question_agrees) question_end (header pkt sect).2.qd hstart
  obtain ⟨n₂, t₂, han, hcalls₂⟩ := sectionItems_agree (resourceRecord pkt) (readRecord pkt) t₁
    (fun _ _ _ => resourceRecord_agrees) resourceRecord_end (header pkt sect).2.an hqd
  obtain ⟨n₃, t₃, hns, hcalls₃⟩ := sectionItems_agree (resourceRecord pkt) (readRecord pkt) t₂
    (fun _ _ _ => resourceRecord_agrees) resourceRecord_end (header pkt sect).2.ns han
  obtain ⟨n₄, t₄, -, hcalls₄⟩ := sectionItems_agree (resourceRecord pkt) (readRecord pkt) t₃
    (fun _ _ _ => resourceRecord_agrees) resourceRecord_end (header pkt sect).2.ar hns
  simp only [data, List.cons_append, List.append_assoc, calls, hcalls₁, hcalls₂, hcalls₃, hcalls₄,
    Message.calls, readMessage]

end Machines

theorem Parsed.message {tree : List TreeCall} (h : Parsed pkt sect bufs tree) :
    tree = (readMessage pkt sect).calls (header pkt sect).2 :=
  h.calls.trans (message_calls pkt sect _)

theorem parsed_of_fits (h : ∀ call ∈ copies pkt [] (data pkt sect), ∃ ls good,
    Expands pkt call.1 call.2 ls good) : ∃ tree, Parsed pkt sect bufs tree := by
  have hret (c k) (hc : Reach (parsing pkt sect bufs) c) (hk : c.copying = some k) :
      Returns pkt c.names k.start := by
    obtain ⟨ls, good, hls⟩ := h _ ((Inv.reach hc).call k hk).1
    obtain ⟨m, e, -, hlast⟩ := hls.copies k.start (rfl : copyName pkt c.names k.start 0 = .next k.start [])
    cases good <;> exact ⟨_, _, _, hlast⟩
  obtain ⟨c, hc, htodo, hnone, -⟩ := reach_actions hret (data pkt sect) [] (by simp)
  exact ⟨c.tree, c, hc, htodo, hnone, rfl⟩

end Netp.Parse.Dns
