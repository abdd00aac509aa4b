import Netp.Parse.JsonDoc
import Netp.Parse.JsonTree

/-! # The two JSON parsers in lockstep

While `JSON_tree` goes on with a text, the machine `JSON` takes the same transitions, in states of the
same places. `Sim` relates the two and the tree: the slots of `vs` and the open nodes above `LangJson`
hold the same parts of one text (`Hole` for those around the value that is being read). A transition
of `JSON_tree` that is not an error keeps it, so nothing that `JSON_parse` accepts is an error of
`JsonParser`.
-/

namespace Netp.Parse.JsonBoth
open Netp.Lib Netp.Parse.Doc
open Netp.Parse.Json (Ignore NumberState QuoteState ArrayState ObjectState)
set_option autoImplicit false

/-! ## States -/

/-- The state of `JSON` where `JSON_tree` is in this one. -/
def like : JsonParse.State → Json.State
  | .start => .start
  | .last | .final => .between [.base]
  | .value i => .value i
  | .literal _ rest => .literal rest
  | .valueEnd => .valueEnd
  | .number n => .number n
  | .string q => .string q
  | .name q => .name q
  | .array a i => .array a i
  | .object o i => .object o i

/-- A literal, behind its first byte. -/
def tail : JsonParse.Literal → Text
  | .null => bytes "ull"
  | .false => bytes "alse"
  | .true => bytes "rue"
  | .nan => bytes "aN"
  | .infinity => bytes "nfinity"

/-- An open node, up to its pattern states. -/
structure Holds (f : StackNode) (type : NodeType) (text : Text) (children : List Node) : Prop where
  type : f.type = type
  text : f.text = text
  children : f.children = children

/-- The nodes around a value that is being read, and the slots below its own. The node on top is the
one the value goes into. -/
inductive Hole (v₀ : VPT) : List JsonParse.State → List JsonParse.Slot → StackNode → List StackNode → Prop
  | last {vt : StackNode} (h : Holds vt v₀.vt.type v₀.vt.text v₀.vt.children) : Hole v₀ [.last] [] vt v₀.vs
  | element {fs : List JsonParse.State} {slots : List JsonParse.Slot} {vt below : StackNode}
      {vs : List StackNode} (ds : List Doc) (h : Holds vt .jsonArray [] (nodes ds))
      (rest : Hole v₀ fs slots below vs) :
      Hole v₀ (.array .element .base :: .valueEnd :: fs) (.array (values ds) :: slots) vt (below :: vs)
  | field {fs : List JsonParse.State} {slots : List JsonParse.Slot} {vt object below : StackNode}
      {vs : List StackNode} (k : FieldName) (fields : List (FieldName × Doc))
      (h : Holds vt .jsonField (quoted k) []) (hobject : Holds object .jsonObject [] (fieldNodes fields))
      (rest : Hole v₀ fs slots below vs) :
      Hole v₀ (.object .field .base :: .valueEnd :: fs)
        (.object (mapOf (fieldValues fields)) k.raw :: slots) vt (object :: below :: vs)

/-- The same for the parts of a value, that have a node of their own. -/
def Part (v₀ : VPT) (stack : List JsonParse.State) (slots : List JsonParse.Slot) (vs : List StackNode) :
    Prop :=
  ∃ fs below vs', stack = .valueEnd :: fs ∧ vs = below :: vs' ∧ Hole v₀ fs slots below vs'

/-- The same for what is in a field. -/
def InField (v₀ : VPT) (stack : List JsonParse.State) (slots : List JsonParse.Slot) (vs : List StackNode)
    (fields : List (FieldName × Doc)) : Prop :=
  ∃ object rest, vs = object :: rest ∧ Holds object .jsonObject [] (fieldNodes fields) ∧
    Part v₀ stack slots rest

/-- The slots and the open nodes in a state of `JSON_tree`. -/
def Tree (v₀ : VPT) (s : JsonParse) (vt : StackNode) (vs : List StackNode) : Prop :=
  match s.cs with
  | .start | .final => False
  | .last => s.stack = [] ∧ s.vs = [] ∧ ∃ d : Doc, s.root = some d.value ∧
      Holds vt v₀.vt.type v₀.vt.text (v₀.vt.children ++ [d.node])
  | .value _ => ∃ slots, s.vs = .empty :: slots ∧ Hole v₀ s.stack slots vt vs
  | .literal l rest => rest <:+ tail l ∧ ∃ slots, s.vs = .empty :: slots ∧ Hole v₀ s.stack slots vt vs
  | .valueEnd => ∃ slots slot d vt', s.vs = slot :: slots ∧ slot.close = some (value d) ∧
      Holds vt vt'.type vt'.text (vt'.children ++ [node d]) ∧ Hole v₀ s.stack slots vt' vs
  | .number _ => ∃ slots, s.vs = .empty :: slots ∧ Holds vt .jsonNumber [] [] ∧ Part v₀ s.stack slots vs
  | .string _ => ∃ slots, s.vs = .empty :: slots ∧ Holds vt .jsonString [] [] ∧ Part v₀ s.stack slots vs
  | .array .start _ =>
      ∃ slots, s.vs = .empty :: slots ∧ Holds vt .jsonArray [] [] ∧ Part v₀ s.stack slots vs
  | .array _ _ => ∃ slots ds, s.vs = .array (values ds) :: slots ∧ Holds vt .jsonArray [] (nodes ds) ∧
      Part v₀ s.stack slots vs
  | .object .start _ =>
      ∃ slots, s.vs = .empty :: slots ∧ Holds vt .jsonObject [] [] ∧ Part v₀ s.stack slots vs
  | .object .opened _ | .object .comma _ => ∃ slots fields key,
      s.vs = .object (mapOf (fieldValues fields)) key :: slots ∧
        Holds vt .jsonObject [] (fieldNodes fields) ∧ Part v₀ s.stack slots vs
  | .object .named _ => ∃ slots fields key, ∃ k : FieldName, s.name = k.raw ∧
      s.vs = .object (mapOf (fieldValues fields)) key :: slots ∧ Holds vt .jsonField (quoted k) [] ∧
        InField v₀ s.stack slots vs fields
  | .object .colon _ => ∃ slots fields, ∃ k : FieldName,
      s.vs = .empty :: .object (mapOf (fieldValues fields)) k.raw :: slots ∧
        Holds vt .jsonField (quoted k) [] ∧ InField v₀ s.stack slots vs fields
  | .object .field _ => ∃ slots fields k d key,
      s.vs = .object (mapOf (fieldValues (fields ++ [(k, d)]))) key :: slots ∧
        Holds vt .jsonField (quoted k) [node d] ∧ InField v₀ s.stack slots vs fields
  | .name _ => ∃ slots fields key stack, s.stack = .object .named .base :: stack ∧
      s.vs = .object (mapOf (fieldValues fields)) key :: slots ∧ Holds vt .jsonField [] [] ∧
        InField v₀ stack slots vs fields

/-- What `buf` holds, in a state of `JSON_tree`. -/
def Buffer (s : JsonParse) (j : Json) : Prop :=
  match s.cs with
  | .number .start | .name .start => j.buf = []
  | .number _ => j.buf = s.mark ∧ j.dot = s.dot ∧ j.exp = s.exp ∧ (s.dot = true → 46 ∈ s.mark) ∧
      ∀ c ∈ s.mark, c ≠ 0
  | .name q => j.buf = 34 :: s.mark ∧ (∀ c ∈ s.mark, c ≠ 0) ∧ s.mark.head? ≠ some 34 ∧
      (q ≠ .body → s.mark ≠ [])
  | .string _ => True
  | _ => j.buf = []

/-- The two parsers at one place of a text, and the tree of the second, that was `v₀` before. -/
structure Sim (v₀ : VPT) (s : JsonParse) (j : Json) (v : VPT) : Prop where
  good : s.error = false
  good' : j.error = false
  cs : j.cs = like s.cs
  stack : j.stack = s.stack.map like
  buffer : Buffer s j
  tree : Tree v₀ s v.vt v.vs
  count : v.topBarrier + v₀.vs.length = v.vs.length + v₀.topBarrier

/-- A transition of `JSON` follows one of `JSON_tree`. -/
def Follows (v₀ : VPT) (v : VPT) (m : JsonParse.Move) (m' : Json.Move) : Prop :=
  m.json.error = false → m'.hold = m.hold ∧
    ∀ w ok, v.performAll m'.calls = some (w, ok) → ok = true ∧ Sim v₀ m.json m'.json w

variable {v₀ v w : VPT} {s : JsonParse} {j : Json} {b : UInt8} {f g : StackNode} {type : NodeType}
  {text : Text} {children : List Node} {ok : Bool}

/-! ## Calls on the tree -/

theorem Holds.alike (h : Holds f type text children) (ht : g.type = f.type) (hx : g.text = f.text)
    (hc : g.children = f.children) : Holds g type text children :=
  ⟨ht.trans h.type, hx.trans h.text, hc.trans h.children⟩

theorem Hole.alike {fs : List JsonParse.State} {slots : List JsonParse.Slot} {vs : List StackNode}
    (h : Hole v₀ fs slots f vs) (ht : g.type = f.type) (hx : g.text = f.text)
    (hc : g.children = f.children) : Hole v₀ fs slots g vs := by
  cases h with
  | last h => exact .last (h.alike ht hx hc)
  | element ds h rest => exact .element ds (h.alike ht hx hc) rest
  | field k fields h hobject rest => exact .field k fields (h.alike ht hx hc) hobject rest

theorem Hole.length {fs : List JsonParse.State} {slots : List JsonParse.Slot} {vs : List StackNode}
    (h : Hole v₀ fs slots f vs) : v₀.vs.length ≤ vs.length := by
  induction h with
  | last => exact le_rfl
  | element _ _ _ ih => exact ih.trans (Nat.le_succ _)
  | field _ _ _ _ _ ih => exact ih.trans (by simp only [List.length_cons]; omega)

theorem push_some {v w : VPT} (h : v.push type = some w) : Holds w.vt type [] [] ∧
    (∃ below, w.vs = below :: v.vs ∧ Holds below v.vt.type v.vt.text v.vt.children) ∧
      w.topBarrier = v.topBarrier + 1 := by
  obtain ⟨a, -, rfl⟩ := Option.map_eq_some_iff.mp h
  exact ⟨⟨rfl, rfl, rfl⟩, ⟨_, rfl, ⟨rfl, rfl, rfl⟩⟩, rfl⟩

theorem pop_some {below : StackNode} {vs : List StackNode} (h : Holds v.vt type text children)
    (hvs : v.vs = below :: vs) (hcount : v.topBarrier ≠ 0) : ∃ w, v.pop type = some (w, true) ∧
      Holds w.vt below.type below.text (below.children ++ [.mk type text children]) ∧
        w.vs = vs ∧ w.topBarrier = v.topBarrier - 1 := by
  rw [VPT.pop, if_neg (not_not.mpr h.type), if_neg hcount, hvs]
  refine ⟨_, rfl, ⟨rfl, rfl, ?_⟩, rfl, rfl⟩
  simp only [VPT.top, h.type, h.text, h.children]

theorem setText_holds (h : Holds v.vt type text children) (x : Text) :
    Holds (v.setText x).vt type x children := ⟨h.type, rfl, h.children⟩

theorem performAll_append (v : VPT) (cs ds : List TreeCall) : v.performAll (cs ++ ds) =
    (v.performAll cs).bind fun r => if r.2 then r.1.performAll ds else some (r.1, false) := by
  induction cs generalizing v with
  | nil => rfl
  | cons c cs ih =>
      simp only [List.cons_append, VPT.performAll]
      cases v.perform c with
      | none => rfl
      | some r =>
          simp only [Option.bind_some]
          split
          · exact ih r.1
          · rfl

theorem perform_push {v w : VPT} (h : v.performAll [.push type] = some (w, ok)) :
    ok = true ∧ v.push type = some w := by
  simp only [VPT.performAll, VPT.perform] at h
  cases hp : v.push type with
  | none => simp [hp] at h
  | some u =>
      simp only [hp, Option.map_some, Option.bind_some, if_true, Option.some.injEq, Prod.mk.injEq] at h
      exact ⟨h.2.symm, congrArg some h.1⟩

theorem perform_close {below : StackNode} {vs : List StackNode} {x : Text} {children : List Node}
    (h : Holds v.vt type text children) (hvs : v.vs = below :: vs) (hcount : v.topBarrier ≠ 0)
    (hw : v.performAll [.setText x, .popOr type] = some (w, ok)) : ok = true ∧
      Holds w.vt below.type below.text (below.children ++ [.mk type x children]) ∧ w.vs = vs ∧
        w.topBarrier = v.topBarrier - 1 := by
  obtain ⟨u, hu, hnode, hrest, hlow⟩ := pop_some (setText_holds h x) hvs hcount
  have : v.performAll [.setText x, .popOr type] = some (u, true) := by
    simp [VPT.performAll, VPT.perform, hu]
  rw [this] at hw
  cases hw
  exact ⟨rfl, hnode, hrest, hlow⟩

theorem perform_pop {below : StackNode} {vs : List StackNode} {children : List Node}
    (h : Holds v.vt type text children) (hvs : v.vs = below :: vs) (hcount : v.topBarrier ≠ 0)
    (hw : v.performAll [.popOr type] = some (w, ok)) : ok = true ∧
      Holds w.vt below.type below.text (below.children ++ [.mk type text children]) ∧ w.vs = vs ∧
        w.topBarrier = v.topBarrier - 1 := by
  obtain ⟨u, hu, hnode, hrest, hlow⟩ := pop_some h hvs hcount
  have : v.performAll [.popOr type] = some (u, true) := by simp [VPT.performAll, VPT.perform, hu]
  rw [this] at hw
  cases hw
  exact ⟨rfl, hnode, hrest, hlow⟩

/-! ## Transitions -/

theorem Follows.fail {m : JsonParse.Move} {m' : Json.Move} (h : m.json.error = true) :
    Follows v₀ v m m' := fun he => by rw [h] at he; cases he

theorem Follows.quiet {m : JsonParse.Move} {m' : Json.Move} (hhold : m'.hold = m.hold)
    (hcalls : m'.calls = []) (h : Sim v₀ m.json m'.json v) : Follows v₀ v m m' := by
  refine fun _ => ⟨hhold, fun w ok hw => ?_⟩
  rw [hcalls] at hw
  cases hw
  exact ⟨rfl, h⟩

theorem ignoring_follows {i : Ignore} {place : Ignore → JsonParse.State} {place' : Ignore → Json.State}
    {other : JsonParse.Move} {other' : Json.Move}
    (hplace : ∀ i, Sim v₀ { s with cs := place i } { j with cs := place' i } v)
    (hother : Follows v₀ v other other') :
    Follows v₀ v (s.ignoring i b place other) (j.ignoring i b place' other') := by
  unfold JsonParse.ignoring Json.ignoring
  cases i.step b with
  | some i => exact .quiet rfl rfl (hplace i)
  | none =>
      simp only
      split
      · exact hother
      · exact .fail rfl

theorem callPart_follows {i : Ignore} (h : Sim v₀ s j v) (hcs : s.cs = .value i)
    (callee : JsonParse.State) (hbuffer : Buffer { s with cs := callee } j)
    (htree : ∀ slots (w : VPT), s.vs = .empty :: slots → Holds w.vt type [] [] →
      Part v₀ (.valueEnd :: s.stack) slots w.vs →
        Tree v₀ { s with cs := callee, stack := .valueEnd :: s.stack } w.vt w.vs) :
    Follows v₀ v (s.fcall .valueEnd callee) (j.fcall [.push type] .valueEnd (like callee)) := by
  refine fun _ => ⟨rfl, fun w ok hw => ?_⟩
  obtain ⟨hok, hpush⟩ := perform_push hw
  obtain ⟨hnode, ⟨below, hvs, hbelow⟩, hcount⟩ := push_some hpush
  have ht := h.tree
  simp only [Tree, hcs] at ht
  obtain ⟨slots, hslots, hhole⟩ := ht
  refine ⟨hok, h.good, h.good', rfl, by simp [h.stack, JsonParse.fcall, Json.fcall, like], hbuffer,
    htree slots w hslots hnode ?_, ?_⟩
  · exact ⟨_, below, v.vs, rfl, hvs, hhole.alike hbelow.type hbelow.text hbelow.children⟩
  · have := h.count
    rw [hcount, hvs, List.length_cons]
    omega

theorem buffer_value {i : Ignore} (h : Sim v₀ s j v) (hcs : s.cs = .value i) : j.buf = [] := by
  have := h.buffer
  simpa only [Buffer, hcs] using this

theorem beginValue_follows {i : Ignore} (h : Sim v₀ s j v) (hcs : s.cs = .value i) :
    Follows v₀ v (s.beginValue b) (j.beginValue b) := by
  have hbuf := buffer_value h hcs
  have ht := h.tree
  simp only [Tree, hcs] at ht
  have hliteral (l : JsonParse.Literal) :
      Follows v₀ v (s.goto (.literal l (tail l))) (j.goto (.literal (tail l))) :=
    .quiet rfl rfl ⟨h.good, h.good', rfl, h.stack, hbuf, ⟨List.suffix_rfl, ht⟩, h.count⟩
  unfold JsonParse.beginValue Json.beginValue
  split_ifs
  · exact hliteral .null
  · exact hliteral .false
  · exact hliteral .true
  · exact hliteral .nan
  · exact hliteral .infinity
  · exact callPart_follows h hcs (.number .start) hbuf fun slots w hs hn hp => ⟨slots, hs, hn, hp⟩
  · exact callPart_follows h hcs (.string .start) trivial fun slots w hs hn hp => ⟨slots, hs, hn, hp⟩
  · exact callPart_follows h hcs (.array .start .base) hbuf fun slots w hs hn hp => ⟨slots, hs, hn, hp⟩
  · exact callPart_follows h hcs (.object .start .base) hbuf fun slots w hs hn hp => ⟨slots, hs, hn, hp⟩
  · exact .fail rfl

theorem value_follows {i : Ignore} (h : Sim v₀ s j v) (hcs : s.cs = .value i) :
    Follows v₀ v (s.trans b) (j.trans b) := by
  have hcs' : j.cs = .value i := by rw [h.cs, hcs]; rfl
  have hbuf := buffer_value h hcs
  have ht := h.tree
  simp only [Tree, hcs] at ht
  simp only [JsonParse.trans, Json.trans, hcs, hcs']
  exact ignoring_follows (fun i => ⟨h.good, h.good', rfl, h.stack, hbuf, ht, h.count⟩)
    (beginValue_follows h hcs)

theorem literal_follows {l : JsonParse.Literal} {rest : Text} (h : Sim v₀ s j v)
    (hcs : s.cs = .literal l rest) : Follows v₀ v (s.trans b) (j.trans b) := by
  have hcs' : j.cs = .literal rest := by rw [h.cs, hcs]; rfl
  have hbuf := h.buffer
  have ht := h.tree
  simp only [Buffer, hcs] at hbuf
  simp only [Tree, hcs] at ht
  simp only [JsonParse.trans, Json.trans, hcs, hcs']
  obtain ⟨hrest, ht⟩ := ht
  rcases rest with _ | ⟨c, _ | ⟨d, rest⟩⟩
  · exact .fail rfl
  rotate_left
  · simp only [JsonParse.literalStep, Json.literalStep]
    split
    · exact .quiet rfl rfl ⟨h.good, h.good', rfl, h.stack, hbuf,
        ⟨(List.suffix_cons c _).trans hrest, ht⟩, h.count⟩
    · exact .fail rfl
  · simp only [JsonParse.literalStep, Json.literalStep]
    split
    · refine fun _ => ⟨rfl, fun w ok hw => ?_⟩
      obtain ⟨slots, hslots, hhole⟩ := ht
      rw [show [TreeCall.push .jsonNull, .pop .jsonNull] = [.push .jsonNull] ++ [.pop .jsonNull] from rfl,
        performAll_append, Option.bind_eq_some_iff] at hw
      obtain ⟨⟨u, ok'⟩, hu, hw⟩ := hw
      obtain ⟨rfl, hpush⟩ := perform_push hu
      obtain ⟨hnode, ⟨below, hvs, hbelow⟩, hcount⟩ := push_some hpush
      obtain ⟨u', hu', hnode', hvs', hcount'⟩ := pop_some hnode hvs (by omega)
      have : u.performAll [.pop .jsonNull] = some (u', true) := by
        simp [VPT.performAll, VPT.perform, hu']
      simp only [if_true, this, Option.some.injEq, Prod.mk.injEq] at hw
      obtain ⟨rfl, rfl⟩ := hw
      refine ⟨rfl, h.good, h.good', rfl, h.stack, hbuf, ⟨slots, .value l.value, .literal l, v.vt, ?_, rfl, ?_, ?_⟩, ?_⟩
      · simp [JsonParse.goto, JsonParse.setVt, hslots]
      · rw [hbelow.type, hbelow.text, hbelow.children] at hnode'
        exact hnode'
      · rw [hvs']
        exact hhole
      · have := h.count
        rw [hcount', hvs', hcount]
        omega
    · exact .fail rfl

theorem valueEnd_follows (h : Sim v₀ s j v) (hcs : s.cs = .valueEnd) :
    Follows v₀ v (s.trans b) (j.trans b) := by
  have hcs' : j.cs = .valueEnd := by rw [h.cs, hcs]; rfl
  obtain ⟨cs, stack, error, mark, name, dot, exp, vs, root⟩ := s
  obtain ⟨cs', stack', error', buf, dot', exp'⟩ := j
  have hbuf := h.buffer
  have ht := h.tree
  have hstack := h.stack
  have hgood := h.good
  have hgood' := h.good'
  have hcount := h.count
  simp only at hcs hcs' hstack hgood hgood'
  subst hcs hcs' hstack hgood hgood'
  simp only [Buffer] at hbuf
  obtain ⟨slots, slot, d, vt', hvs, hclose, hnode, hhole⟩ := ht
  simp only at hvs hhole
  subst hvs
  simp only [JsonParse.trans, Json.trans]
  generalize hv : v.vs = below at hhole
  cases hhole with
  | last hvt =>
      simp only [JsonParse.popVt, hclose, Option.map_some]
      refine .quiet rfl rfl ⟨rfl, rfl, rfl, rfl, hbuf, ⟨rfl, rfl, d, rfl, ?_⟩, hcount⟩
      rw [hvt.type, hvt.text, hvt.children] at hnode
      exact hnode
  | element ds hvt rest =>
      simp only [JsonParse.popVt, hclose, Option.bind_some, JsonParse.Slot.put, Option.map_some]
      refine .quiet rfl rfl ⟨rfl, rfl, rfl, rfl, hbuf, ⟨_, ds ++ [d], ?_, ?_, ⟨_, _, _, rfl, hv, rest⟩⟩, hcount⟩
      · simp [JsonParse.fret, values_append]
      · rw [hvt.type, hvt.text, hvt.children, ← nodes_append] at hnode
        exact hnode
  | field k fields hvt hobject rest =>
      simp only [JsonParse.popVt, hclose, Option.bind_some, JsonParse.Slot.put, Option.map_some]
      refine .quiet rfl rfl ⟨rfl, rfl, rfl, rfl, hbuf,
        ⟨_, fields, k, d, k.raw, ?_, ?_, ⟨_, _, hv, hobject, ⟨_, _, _, rfl, rfl, rest⟩⟩⟩, hcount⟩
      · simp [JsonParse.fret, mapOf_append]
      · rw [hvt.type, hvt.text, hvt.children, List.nil_append] at hnode
        exact hnode

/-! ### Numbers -/

theorem trimZeros_eq {l : Text} (h : ∃ c ∈ l, c ≠ 48) :
    JsonParse.trimZeros l = l.dropWhile (· = 48) := by
  induction l with
  | nil => rfl
  | cons c l ih =>
      cases l with
      | nil =>
          obtain ⟨d, hd, hne⟩ := h
          cases List.mem_singleton.mp hd
          simp [JsonParse.trimZeros, hne]
      | cons d l =>
          simp only [JsonParse.trimZeros]
          by_cases hc : c = 48
          · obtain ⟨e, he, hne⟩ := h
            rw [if_pos hc, List.dropWhile_cons_of_pos (by simpa using hc)]
            refine ih ⟨e, ?_, hne⟩
            rcases List.mem_cons.mp he with rfl | he
            · exact absurd hc hne
            · exact he
          · rw [if_neg hc, List.dropWhile_cons_of_neg (by simpa using hc)]

theorem trim_eq (hbuf : j.buf = s.mark) (hdot : j.dot = s.dot) (hexp : j.exp = s.exp)
    (hin : s.dot = true → 46 ∈ s.mark) : j.trim = s.trim := by
  unfold Json.trim JsonParse.trim
  rw [hbuf, hdot, hexp]
  split
  · next h =>
      have hmark : 46 ∈ s.mark := hin (by simp_all)
      have hzeros := trimZeros_eq (l := s.mark.reverse) ⟨46, by simpa using hmark, by decide⟩
      simp only [hzeros]
      rw [List.getLast?_reverse]
      split
      · rw [List.dropLast_reverse]
      · rfl
  · rfl

theorem trim_subset (c : UInt8) (h : c ∈ s.trim) : c ∈ s.mark := by
  have hzeros : ∀ l : Text, c ∈ JsonParse.trimZeros l → c ∈ l := by
    intro l
    induction l with
    | nil => exact id
    | cons d l ih =>
        cases l with
        | nil => exact id
        | cons e l =>
            simp only [JsonParse.trimZeros]
            split
            · exact fun h => List.mem_cons_of_mem _ (ih h)
            · exact id
  unfold JsonParse.trim at h
  split at h
  · simp only [List.mem_reverse] at h
    have : c ∈ JsonParse.trimZeros s.mark.reverse := by
      split at h
      · exact List.mem_of_mem_tail h
      · exact h
    simpa using hzeros _ this
  · exact h

/-- What is left when the part of a value is at its end: the node of the value is in its place. -/
theorem part_close (slot : JsonParse.Slot) (d : Doc) {slots : List JsonParse.Slot} {hold : Bool}
    {calls : List TreeCall} (h : Sim v₀ s j v) (hp : Part v₀ s.stack slots v.vs)
    (hclose : slot.close = some d.value) {s' : JsonParse} (hs' : s'.stack = s.stack)
    (hvs' : s'.vs = slot :: slots) (hgood : s'.error = false) {j' : Json} (hj' : j'.stack = j.stack)
    (hgood' : j'.error = false) (hbuf : j'.buf = [])
    (hcalls : ∀ w ok below vs, v.vs = below :: vs → v.topBarrier ≠ 0 →
      v.performAll calls = some (w, ok) → ok = true ∧
        Holds w.vt below.type below.text (below.children ++ [d.node]) ∧ w.vs = vs ∧
          w.topBarrier = v.topBarrier - 1) :
    Follows v₀ v (s'.fret hold) (j'.fret calls hold) := by
  obtain ⟨fs, below, vs, hstack, hv, hhole⟩ := hp
  have hlen := hhole.length
  have hcount := h.count
  rw [hv, List.length_cons] at hcount
  have hjs : j.stack = .valueEnd :: fs.map like := by rw [h.stack, hstack]; rfl
  unfold JsonParse.fret Json.fret
  rw [hs', hstack, hj', hjs]
  refine fun _ => ⟨rfl, fun w ok hw => ?_⟩
  obtain ⟨hok, hnode, hrest, hlow⟩ := hcalls w ok below vs hv (by omega) hw
  refine ⟨hok, hgood, hgood', rfl, rfl, hbuf, ⟨slots, slot, d, below, hvs', hclose, hnode, ?_⟩, ?_⟩
  · rw [hrest]
    exact hhole
  · rw [hlow, hrest]
    omega

theorem number_follows {n : NumberState} (h : Sim v₀ s j v) (hcs : s.cs = .number n) :
    Follows v₀ v (s.trans b) (j.trans b) := by
  have hcs' : j.cs = .number n := by rw [h.cs, hcs]; rfl
  have hbuf := h.buffer
  have ht := h.tree
  simp only [Tree, hcs] at ht
  simp only [JsonParse.trans, Json.trans, hcs, hcs']
  obtain ⟨slots, hslots, hnode, hpart⟩ := ht
  -- a byte of the number, with what is to be shown of the two flags
  have hgoto {n' : NumberState} (hn : n' ≠ .start) {mark buf : Text} {dot exp : Bool}
      (hmark : buf = mark) (hdot : dot = true → 46 ∈ mark) (hzero : ∀ c ∈ mark, c ≠ 0) :
      Follows v₀ v (JsonParse.goto { s with mark := mark, dot := dot, exp := exp } (.number n'))
        (Json.goto { j with buf := buf, dot := dot, exp := exp } (.number n')) := by
    refine .quiet rfl rfl ⟨h.good, h.good', rfl, h.stack, ?_, ⟨slots, hslots, hnode, hpart⟩, h.count⟩
    cases n' <;> first | exact absurd rfl hn | exact ⟨hmark, rfl, rfl, hdot, hzero⟩
  by_cases hstart : n = .start
  · subst hstart
    simp only [Buffer, hcs] at hbuf
    simp only [JsonParse.numberStep, Json.numberStep, Json.append, hbuf, List.nil_append]
    split_ifs with h45 h48 hdigit
    · exact hgoto NumberState.noConfusion rfl Bool.noConfusion (by simp [h45])
    · exact hgoto NumberState.noConfusion rfl Bool.noConfusion (by simp [h48])
    · refine hgoto NumberState.noConfusion rfl Bool.noConfusion ?_
      rintro c hc rfl
      cases List.mem_singleton.mp hc
      exact absurd hdigit (by decide)
    · exact .fail rfl
  · have hbuf' : j.buf = s.mark ∧ j.dot = s.dot ∧ j.exp = s.exp ∧ (s.dot = true → 46 ∈ s.mark) ∧
        ∀ c ∈ s.mark, c ≠ 0 := by
      simp only [Buffer, hcs] at hbuf
      cases n <;> first | exact absurd rfl hstart | exact hbuf
    obtain ⟨cs', stack', error', buf, dot', exp'⟩ := j
    obtain ⟨hmark, hdot, hexp, hin, hzero⟩ := hbuf'
    simp only at hmark hdot hexp
    subst hmark hdot hexp
    have hend : Follows v₀ v s.numberEnd (Json.numberEnd ⟨cs', stack', error', s.mark, s.dot, s.exp⟩) := by
      have htext : cstr (Json.trim ⟨cs', stack', error', s.mark, s.dot, s.exp⟩ ++ [0]) = s.trim := by
        rw [cstr_concat_zero, trim_eq rfl rfl rfl hin]
        exact cstr_eq_self fun c hc => hzero c (trim_subset c hc)
      unfold JsonParse.numberEnd Json.numberEnd
      rw [htext]
      refine part_close (.value (.number s.trim)) (.number s.trim) h hpart rfl ?_ ?_ ?_ ?_ ?_ ?_
        fun w ok below vs hv hc hw => perform_close hnode hv hc hw
      · rfl
      · simp [JsonParse.setVt, hslots]
      · exact h.good
      · rfl
      · exact h.good'
      · rfl
    have hmore (dot exp : Bool) (n' : NumberState) (hn : n' ≠ .start) (hb : b ≠ 0)
        (hin' : dot = true → s.dot = true ∨ b = 46) :
        Follows v₀ v (JsonParse.goto { s with mark := s.mark ++ [b], dot := dot, exp := exp } (.number n'))
          (Json.goto ⟨cs', stack', error', s.mark ++ [b], dot, exp⟩ (.number n')) := by
      refine hgoto hn rfl (fun hd => ?_) fun c hc => ?_
      · rcases hin' hd with hd | rfl
        · exact List.mem_append_left _ (hin hd)
        · simp
      · rcases List.mem_append.mp hc with hc | hc
        · exact hzero c hc
        · cases List.mem_singleton.mp hc
          exact hb
    have hpoint (h : b = 46) := hmore true s.exp .dot (by simp)
      (h ▸ by decide) fun _ => .inr h
    have hE (h : Json.isE b = true) := hmore s.dot true .exp (by simp)
      (by rintro rfl; exact absurd h (by decide)) .inl
    have hbyte {n' : NumberState} (hn : n' ≠ .start)
        (h : Json.isDigit b = true ∨ b = 48 ∨ b = 43 ∨ b = 45) :=
      hmore s.dot s.exp n' hn (by rintro rfl; exact absurd h (by decide)) .inl
    cases n <;> simp only [JsonParse.numberStep, Json.numberStep, Json.append] <;> split_ifs
    all_goals first
      | exact absurd rfl hstart
      | exact hend
      | exact .fail rfl
      | exact hpoint ‹_›
      | exact hE ‹_›
      | exact hbyte (by simp) (.inl ‹_›)
      | exact hbyte (by simp) (.inr (.inl ‹_›))
      | exact hbyte (by simp) (.inr (.inr ‹_›))

/-! ### Strings and names -/

theorem string_follows {q : QuoteState} (h : Sim v₀ s j v) (hcs : s.cs = .string q) :
    Follows v₀ v (s.trans b) (j.trans b) := by
  have hcs' : j.cs = .string q := by rw [h.cs, hcs]; rfl
  have ht := h.tree
  simp only [Tree, hcs] at ht
  simp only [JsonParse.trans, Json.trans, hcs, hcs']
  obtain ⟨slots, hslots, hnode, hpart⟩ := ht
  have hgoto (mark buf : Text) (q' : QuoteState) :
      Follows v₀ v (JsonParse.goto { s with mark := mark } (.string q'))
        (Json.goto { j with buf := buf } (.string q')) :=
    .quiet rfl rfl ⟨h.good, h.good', rfl, h.stack, trivial, ⟨slots, hslots, hnode, hpart⟩, h.count⟩
  have hend : Follows v₀ v (JsonParse.fret (s.setVt (.value (.string s.mark))) false)
      (Json.fret { j with buf := [] } [.setText (cstr (j.buf ++ [0])), .popOr .jsonString] false) := by
    refine part_close (.value (.string s.mark)) (.string s.mark (cstr (j.buf ++ [0]))) h hpart rfl
      ?_ ?_ ?_ ?_ ?_ ?_ fun w ok below vs hv hc hw => perform_close hnode hv hc hw
    · rfl
    · simp [JsonParse.setVt, hslots]
    · exact h.good
    · rfl
    · exact h.good'
    · rfl
  cases q with
  | start =>
      simp only [JsonParse.stringStep, Json.stringStep]
      split_ifs
      · exact hgoto [] j.buf .body
      · exact .fail rfl
  | body =>
      simp only [JsonParse.stringStep, Json.stringStep]
      split_ifs
      · exact hend
      · exact hgoto _ j.buf .escape
      · exact .fail rfl
      · exact hgoto _ _ .body
  | escape =>
      simp only [JsonParse.stringStep, Json.stringStep]
      split_ifs
      · exact hgoto _ j.buf (.hex 3)
      · exact .fail rfl
      · exact hgoto _ _ .body
  | hex n =>
      cases n <;> simp only [JsonParse.stringStep, Json.stringStep] <;> split_ifs
      · exact hgoto _ j.buf .body
      · exact .fail rfl
      · exact hgoto _ j.buf (.hex _)
      · exact .fail rfl

theorem name_follows {q : QuoteState} (h : Sim v₀ s j v) (hcs : s.cs = .name q) :
    Follows v₀ v (s.trans b) (j.trans b) := by
  have hcs' : j.cs = .name q := by rw [h.cs, hcs]; rfl
  have hbuf := h.buffer
  have ht := h.tree
  simp only [Tree, hcs] at ht
  simp only [JsonParse.trans, Json.trans, hcs, hcs']
  obtain ⟨slots, fields, key, stack, hstack, hslots, hnode, hfield⟩ := ht
  have hgoto {mark buf : Text} {q' : QuoteState} (hbuf : Buffer
      { s with mark := mark, cs := .name q' } { j with buf := buf, cs := .name q' }) :
      Follows v₀ v (JsonParse.goto { s with mark := mark } (.name q'))
        (Json.goto { j with buf := buf } (.name q')) :=
    .quiet rfl rfl ⟨h.good, h.good', rfl, h.stack, hbuf,
      ⟨slots, fields, key, stack, hstack, hslots, hnode, hfield⟩, h.count⟩
  by_cases hstart : q = .start
  · subst hstart
    simp only [Buffer, hcs] at hbuf
    simp only [JsonParse.nameStep, Json.nameStep, Json.append, hbuf, List.nil_append]
    split_ifs with h34
    · exact hgoto ⟨by rw [h34], by simp, by simp, fun h => absurd rfl h⟩
    · exact .fail rfl
  · obtain ⟨hmark, hzero, hquote, hempty⟩ : j.buf = 34 :: s.mark ∧ (∀ c ∈ s.mark, c ≠ 0) ∧
        s.mark.head? ≠ some 34 ∧ (q ≠ .body → s.mark ≠ []) := by
      simp only [Buffer, hcs] at hbuf
      cases q <;> first | exact absurd rfl hstart | exact hbuf
    -- a byte of the name: only behind a backslash is it a quote
    have hmore {q' : QuoteState} (hq : q' ≠ .start) (hb : b ≠ 0) (h34 : b = 34 → s.mark ≠ []) :
        Follows v₀ v (JsonParse.goto { s with mark := s.mark ++ [b] } (.name q'))
          ((j.append b).goto (.name q')) := by
      refine hgoto ?_
      have : j.buf ++ [b] = 34 :: (s.mark ++ [b]) ∧ (∀ c ∈ s.mark ++ [b], c ≠ 0) ∧
          (s.mark ++ [b]).head? ≠ some 34 ∧ (q' ≠ .body → s.mark ++ [b] ≠ []) := by
        refine ⟨by rw [hmark]; rfl, fun c hc => ?_, ?_, fun _ => by simp⟩
        · rcases List.mem_append.mp hc with hc | hc
          · exact hzero c hc
          · cases List.mem_singleton.mp hc
            exact hb
        · cases hm : s.mark with
          | nil => simpa using fun h => h34 h hm
          | cons c m => simpa [hm] using hquote
      cases q' <;> first | exact absurd rfl hq | exact this
    have hend (h34 : b = 34) : Follows v₀ v (JsonParse.fret { s with name := s.mark } false)
        (Json.fret { j.append b with buf := [] } [.setText (cstr ((j.append b).buf ++ [0]))] false) := by
      have htext : cstr ((j.append b).buf ++ [0]) = quoted ⟨s.mark, hquote⟩ := by
        rw [cstr_concat_zero, Json.append, hmark, h34]
        refine cstr_eq_self fun c hc => ?_
        rcases List.mem_append.mp hc with hc | hc
        · rcases List.mem_cons.mp hc with rfl | hc
          · decide
          · exact hzero c hc
        · cases List.mem_singleton.mp hc
          decide
      have hjs : j.stack = like (.object .named .base) :: stack.map like := by rw [h.stack, hstack]; rfl
      unfold JsonParse.fret Json.fret
      simp only [hstack, Json.append, hjs]
      refine fun _ => ⟨rfl, fun w ok hw => ?_⟩
      cases hw
      refine ⟨rfl, h.good, h.good', rfl, rfl, rfl, ?_, h.count⟩
      refine ⟨slots, fields, key, ⟨s.mark, hquote⟩, rfl, hslots, ?_, hfield⟩
      change Holds (v.setText (cstr ((j.append b).buf ++ [0]))).vt _ _ _
      rw [htext]
      exact setText_holds hnode _
    have h32 (h : ¬b < 32) : b ≠ 0 := by
      rintro rfl
      exact h (by decide)
    have hhex (h : Json.isHexDigit b = true) : b ≠ 0 := by
      rintro rfl
      exact absurd h (by decide)
    cases q with
    | start => exact absurd rfl hstart
    | body =>
        simp only [JsonParse.nameStep, Json.nameStep]
        split_ifs with h34 h92 hlow
        · exact hend h34
        · exact hmore (by simp) (h92 ▸ by decide) fun h => absurd h h34
        · exact .fail rfl
        · exact hmore (by simp) (h32 hlow) fun h => absurd h h34
    | escape =>
        have hne := hempty (by simp)
        simp only [JsonParse.nameStep, Json.nameStep]
        split_ifs with h117 hlow
        · exact hmore (by simp) (h117 ▸ by decide) fun _ => hne
        · exact .fail rfl
        · exact hmore (by simp) (h32 hlow) fun _ => hne
    | hex n =>
        have hne := hempty (by simp)
        cases n <;> simp only [JsonParse.nameStep, Json.nameStep] <;> split_ifs with h
        · exact hmore (by simp) (hhex h) fun _ => hne
        · exact .fail rfl
        · exact hmore (by simp) (hhex h) fun _ => hne
        · exact .fail rfl

/-! ### Arrays and objects -/

theorem array_follows {a : ArrayState} {i : Ignore} (h : Sim v₀ s j v) (hcs : s.cs = .array a i) :
    Follows v₀ v (s.trans b) (j.trans b) := by
  have hcs' : j.cs = .array a i := by rw [h.cs, hcs]; rfl
  have hbuf := h.buffer
  have ht := h.tree
  simp only [Buffer, hcs] at hbuf
  simp only [Tree, hcs] at ht
  simp only [JsonParse.trans, Json.trans, hcs, hcs']
  by_cases hstart : a = .start
  · subst hstart
    obtain ⟨slots, hslots, hnode, hpart⟩ := ht
    simp only [JsonParse.arrayStep, Json.arrayStep]
    split_ifs
    · refine .quiet rfl rfl ⟨h.good, h.good', rfl, h.stack, hbuf, ⟨slots, [], ?_, hnode, hpart⟩, h.count⟩
      simp [JsonParse.goto, JsonParse.setVt, hslots, values]
    · exact .fail rfl
  · have ht' : ∃ slots ds, s.vs = .array (values ds) :: slots ∧ Holds v.vt .jsonArray [] (nodes ds) ∧
        Part v₀ s.stack slots v.vs := by
      cases a <;> first | exact absurd rfl hstart | exact ht
    obtain ⟨slots, ds, hslots, hnode, hpart⟩ := ht'
    have hgoto (a' : ArrayState) (ha : a' ≠ .start) (i : Ignore) :
        Sim v₀ { s with cs := .array a' i } { j with cs := .array a' i } v := by
      refine ⟨h.good, h.good', rfl, h.stack, hbuf, ?_, h.count⟩
      cases a' <;> first | exact absurd rfl ha | exact ⟨slots, ds, hslots, hnode, hpart⟩
    have hcall : Follows v₀ v s.callElement (j.callValue (.array .element .base)) := by
      obtain ⟨fs, below, vs, hstack, hv, hhole⟩ := hpart
      refine .quiet rfl rfl ⟨h.good, h.good', rfl, ?_, hbuf, ⟨s.vs, rfl, ?_⟩, h.count⟩
      · simp [JsonParse.callElement, JsonParse.fcall, JsonParse.pushVt, Json.callValue, Json.fcall,
          h.stack, like]
      · simp only [JsonParse.callElement, JsonParse.fcall, JsonParse.pushVt, hstack, hv, hslots]
        exact .element ds hnode hhole
    have hend : Follows v₀ v (s.fret false) (j.fret [.popOr .jsonArray] false) :=
      part_close (.array (values ds)) (.array ds) h hpart (by rw [value]; rfl) rfl hslots h.good rfl
        h.good' hbuf fun w ok below vs hv hc hw => by
          rw [node]
          exact perform_pop hnode hv hc hw
    cases a with
    | start => exact absurd rfl hstart
    | opened =>
        refine ignoring_follows (hgoto _ (by simp)) ?_
        split_ifs
        · exact hcall
        · exact hend
        · exact .fail rfl
    | element =>
        refine ignoring_follows (hgoto _ (by simp)) ?_
        split_ifs
        · exact .quiet rfl rfl (hgoto .comma (by simp) .base)
        · exact hend
        · exact .fail rfl
    | comma =>
        refine ignoring_follows (hgoto _ (by simp)) ?_
        split_ifs
        · exact hcall
        · exact .fail rfl

theorem parseName_follows {o : ObjectState} {i : Ignore} {slots : List JsonParse.Slot}
    {fields : List (FieldName × Doc)} {key : Text} (h : Sim v₀ s j v) (hcs : s.cs = .object o i)
    (hslots : s.vs = .object (mapOf (fieldValues fields)) key :: slots)
    (hnode : Holds v.vt .jsonObject [] (fieldNodes fields)) (hpart : Part v₀ s.stack slots v.vs) :
    Follows v₀ v s.parseName j.callName := by
  have hbuf := h.buffer
  simp only [Buffer, hcs] at hbuf
  refine fun _ => ⟨rfl, fun w ok hw => ?_⟩
  obtain ⟨hok, hpush⟩ := perform_push hw
  obtain ⟨hfield, ⟨below, hvs, hbelow⟩, hcount⟩ := push_some hpush
  refine ⟨hok, h.good, h.good', rfl, ?_, hbuf, ⟨slots, fields, key, s.stack, rfl, hslots, hfield, below,
    v.vs, hvs, hnode.alike hbelow.type hbelow.text hbelow.children, hpart⟩, ?_⟩
  · simp [JsonParse.parseName, JsonParse.fcall, Json.callName, Json.fcall, h.stack, like]
  · have := h.count
    rw [hcount, hvs, List.length_cons]
    omega

theorem objectEnd_follows {slots : List JsonParse.Slot} {fields : List (FieldName × Doc)} {key : Text}
    (h : Sim v₀ s j v) (hbuf : j.buf = [])
    (hslots : s.vs = .object (mapOf (fieldValues fields)) key :: slots)
    (hnode : Holds v.vt .jsonObject [] (fieldNodes fields)) (hpart : Part v₀ s.stack slots v.vs) :
    Follows v₀ v (s.fret false) (j.fret [.popOr .jsonObject] false) :=
  part_close (.object (mapOf (fieldValues fields)) key) (.object fields) h hpart (by rw [value]; rfl) rfl
    hslots h.good rfl h.good' hbuf fun w ok below vs hv hc hw => by
      rw [node]
      exact perform_pop hnode hv hc hw

theorem object_follows {o : ObjectState} {i : Ignore} (h : Sim v₀ s j v) (hcs : s.cs = .object o i) :
    Follows v₀ v (s.trans b) (j.trans b) := by
  have hcs' : j.cs = .object o i := by rw [h.cs, hcs]; rfl
  have hbuf := h.buffer
  have ht := h.tree
  simp only [Buffer, hcs] at hbuf
  simp only [Tree, hcs] at ht
  simp only [JsonParse.trans, Json.trans, hcs, hcs']
  cases o with
  | start =>
      obtain ⟨slots, hslots, hnode, hpart⟩ := ht
      simp only [JsonParse.objectStep, Json.objectStep]
      split_ifs
      · refine .quiet rfl rfl ⟨h.good, h.good', rfl, h.stack, hbuf, ⟨slots, [], [], ?_, hnode, hpart⟩,
          h.count⟩
        simp [JsonParse.goto, JsonParse.setVt, hslots, fieldValues, mapOf]
      · exact .fail rfl
  | opened =>
      obtain ⟨slots, fields, key, hslots, hnode, hpart⟩ := ht
      refine ignoring_follows (fun i => ⟨h.good, h.good', rfl, h.stack, hbuf,
        ⟨slots, fields, key, hslots, hnode, hpart⟩, h.count⟩) ?_
      split_ifs
      · exact parseName_follows h hcs hslots hnode hpart
      · exact objectEnd_follows h hbuf hslots hnode hpart
      · exact .fail rfl
  | named =>
      obtain ⟨slots, fields, key, k, hname, hslots, hnode, hfield⟩ := ht
      refine ignoring_follows (fun i => ⟨h.good, h.good', rfl, h.stack, hbuf,
        ⟨slots, fields, key, k, hname, hslots, hnode, hfield⟩, h.count⟩) ?_
      split_ifs
      · simp only [JsonParse.newField, hslots]
        refine .quiet rfl rfl ⟨h.good, h.good', rfl, h.stack, hbuf,
          ⟨slots, fields, k, ?_, hnode, hfield⟩, h.count⟩
        simp only [JsonParse.goto, hname]
      · exact .fail rfl
  | colon =>
      obtain ⟨slots, fields, k, hslots, hnode, hfield⟩ := ht
      refine ignoring_follows (fun i => ⟨h.good, h.good', rfl, h.stack, hbuf,
        ⟨slots, fields, k, hslots, hnode, hfield⟩, h.count⟩) ?_
      split_ifs
      · obtain ⟨object, rest, hv, hobject, fs, below, vs, hstack, rfl, hhole⟩ := hfield
        refine .quiet rfl rfl ⟨h.good, h.good', rfl, ?_, hbuf,
          ⟨.object (mapOf (fieldValues fields)) k.raw :: slots, hslots, ?_⟩, h.count⟩
        · simp [JsonParse.fcall, Json.callValue, Json.fcall, h.stack, like]
        · simp only [JsonParse.fcall, hstack, hv]
          exact .field k fields hnode hobject hhole
      · exact .fail rfl
  | field =>
      obtain ⟨slots, fields, k, d, key, hslots, hnode, object, rest, hv, hobject, hpart⟩ := ht
      have hcount : v.topBarrier ≠ 0 := by
        obtain ⟨fs, below, vs, -, rfl, hhole⟩ := hpart
        have := hhole.length
        have := h.count
        rw [hv, List.length_cons, List.length_cons] at this
        omega
      -- the field is closed, as in the state behind the separator
      have hpop (u : VPT) (ok : Bool) (hu : v.performAll [.popOr .jsonField] = some (u, ok)) :
          ok = true ∧ Holds u.vt .jsonObject [] (fieldNodes (fields ++ [(k, d)])) ∧ u.vs = rest ∧
            Sim v₀ { s with cs := .object .comma .base } { j with cs := .object .comma .base } u := by
        obtain ⟨hok, hbelow, hrest, hlow⟩ := perform_pop hnode hv hcount hu
        rw [hobject.type, hobject.text, hobject.children, ← fieldNodes_append] at hbelow
        refine ⟨hok, hbelow, hrest, h.good, h.good', rfl, h.stack, hbuf,
          ⟨slots, fields ++ [(k, d)], key, hslots, hbelow, hrest ▸ hpart⟩, ?_⟩
        have := h.count
        rw [hv, List.length_cons] at this
        rw [hlow, hrest]
        omega
      refine ignoring_follows (fun i => ⟨h.good, h.good', rfl, h.stack, hbuf,
        ⟨slots, fields, k, d, key, hslots, hnode, object, rest, hv, hobject, hpart⟩, h.count⟩) ?_
      split_ifs
      · exact fun _ => ⟨rfl, fun w ok hw => ⟨(hpop w ok hw).1, (hpop w ok hw).2.2.2⟩⟩
      · obtain ⟨u, hu, -⟩ := pop_some hnode hv hcount
        have hfirst : v.performAll [.popOr .jsonField] = some (u, true) := by
          simp [VPT.performAll, VPT.perform, hu]
        obtain ⟨-, hbelow, hrest, hsim⟩ := hpop u true hfirst
        have hobjectEnd := objectEnd_follows hsim hbuf hslots hbelow (hrest ▸ hpart)
        obtain ⟨fs, below, vs, hstack, -⟩ := hpart
        have hjs : j.stack = .valueEnd :: fs.map like := by rw [h.stack, hstack]; rfl
        simp only [JsonParse.fret, Json.fret, hstack, hjs] at hobjectEnd ⊢
        intro he
        refine ⟨rfl, fun w ok hw => (hobjectEnd he).2 w ok ?_⟩
        have : v.performAll ([.popOr .jsonField] ++ [.popOr .jsonObject]) = some (w, ok) := hw
        rw [performAll_append, hfirst] at this
        exact this
      · exact .fail rfl
  | comma =>
      obtain ⟨slots, fields, key, hslots, hnode, hpart⟩ := ht
      refine ignoring_follows (fun i => ⟨h.good, h.good', rfl, h.stack, hbuf,
        ⟨slots, fields, key, hslots, hnode, hpart⟩, h.count⟩) ?_
      split_ifs
      · exact parseName_follows h hcs hslots hnode hpart
      · exact .fail rfl

/-! ## Bytes -/

theorem trans_follows (h : Sim v₀ s j v) (hlast : s.cs ≠ .last) : Follows v₀ v (s.trans b) (j.trans b) := by
  have ht := h.tree
  cases hcs : s.cs with
  | start => simp only [Tree, hcs] at ht
  | final => simp only [Tree, hcs] at ht
  | last => exact absurd hcs hlast
  | value i => exact value_follows h hcs
  | literal l rest => exact literal_follows h hcs
  | valueEnd => exact valueEnd_follows h hcs
  | number n => exact number_follows h hcs
  | string q => exact string_follows h hcs
  | name q => exact name_follows h hcs
  | array a i => exact array_follows h hcs
  | object o i => exact object_follows h hcs

theorem fret_error {hold : Bool} (h : s.error = true) : (s.fret hold).json.error = true := by
  unfold JsonParse.fret
  cases s.stack with
  | nil => rfl
  | cons cs stack => exact h

theorem ignoring_error {i : Ignore} {place : Ignore → JsonParse.State} {other : JsonParse.Move}
    (h : s.error = true) (hother : other.json.error = true) :
    (s.ignoring i b place other).json.error = true := by
  unfold JsonParse.ignoring
  cases i.step b with
  | some i => exact h
  | none =>
      simp only
      split
      · exact hother
      · rfl

theorem popVt_error {s' : JsonParse} (h : s.popVt = some s') : s'.error = s.error := by
  unfold JsonParse.popVt at h
  split at h
  · cases h
  · obtain ⟨x, -, rfl⟩ := Option.map_eq_some_iff.mp h
    rfl
  · obtain ⟨x, -, h⟩ := Option.bind_eq_some_iff.mp h
    obtain ⟨y, -, rfl⟩ := Option.map_eq_some_iff.mp h
    rfl

theorem trans_error (h : s.error = true) : (s.trans b).json.error = true := by
  unfold JsonParse.trans
  cases s.cs with
  | start => exact h
  | last =>
      simp only
      split_ifs
      · exact h
      · rfl
  | final => rfl
  | value i =>
      refine ignoring_error h ?_
      unfold JsonParse.beginValue
      split_ifs <;> first | exact h | rfl
  | literal l rest =>
      rcases rest with _ | ⟨c, _ | ⟨d, rest⟩⟩ <;> simp only [JsonParse.literalStep] <;> try split_ifs
      all_goals first | exact h | rfl
  | valueEnd =>
      simp only
      split
      · rfl
      · next s' hpop => exact fret_error ((popVt_error hpop).trans h)
  | number n =>
      cases n <;> simp only [JsonParse.numberStep] <;> split_ifs <;>
        first | exact h | rfl | exact fret_error h
  | string q =>
      rcases q with _ | _ | _ | _ | n <;> simp only [JsonParse.stringStep] <;> split_ifs <;>
        first | exact h | rfl | exact fret_error h
  | name q =>
      rcases q with _ | _ | _ | _ | n <;> simp only [JsonParse.nameStep] <;> split_ifs <;>
        first | exact h | rfl | exact fret_error h
  | array a i =>
      cases a <;> simp only [JsonParse.arrayStep] <;> first | refine ignoring_error h ?_ | skip
      all_goals split_ifs <;> first | exact h | rfl | exact fret_error h
  | object o i =>
      have hfield : s.newField.error = true := by
        unfold JsonParse.newField
        split
        · exact h
        · rfl
      cases o <;> simp only [JsonParse.objectStep] <;> first | refine ignoring_error h ?_ | skip
      all_goals split_ifs <;> first | exact h | exact hfield | rfl | exact fret_error h

theorem step_error (h : s.error = true) (n : ℕ) : (s.step n b).error = true := by
  induction n generalizing s with
  | zero => exact h
  | succ n ih =>
      simp only [JsonParse.step]
      split
      · exact ih (trans_error h)
      · exact trans_error h

end Netp.Parse.JsonBoth
