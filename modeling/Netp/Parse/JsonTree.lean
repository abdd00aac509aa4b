import Netp.Parse.Json

/-! # The JSON parser and the tree

The open nodes of the tree are those of the submachines that have been called: a number, a string and
an array have one each, an object has one more while it is in a field. Every transition keeps this, so
that no `pop` of the JSON parser fails; and no byte is read by more transitions than `Json.reads`.
-/

namespace Netp.Parse
open Netp.Lib
set_option autoImplicit false

namespace Json

/-- The nodes a submachine has open, the last one first. -/
def State.nodes : State → List NodeType
  | .number _ => [.jsonNumber]
  | .string _ => [.jsonString]
  | .array _ _ => [.jsonArray]
  | .object .named _ | .object .colon _ | .object .field _ => [.jsonField, .jsonObject]
  | .object _ _ => [.jsonObject]
  | _ => []

def nodes (j : Json) : List NodeType := (j.cs :: j.stack).flatMap State.nodes

/-- The submachines by who calls them. -/
inductive Kind
  | main | value | part | name
  deriving DecidableEq

def State.kind : State → Kind
  | .start | .guard _ | .first | .between _ => .main
  | .value _ | .literal _ | .valueEnd => .value
  | .name _ => .name
  | _ => .part

/-- The states that `value` returns to. -/
inductive State.CallsValue : State → Prop
  | between (places : List Ignore) : CallsValue (.between places)
  | element : CallsValue (.array .element .base)
  | field : CallsValue (.object .field .base)

/-- The states of submachines that have called each other, the last one first. -/
inductive Nested : List State → Prop
  | main {s : State} (h : s.kind = .main) : Nested [s]
  | value {s f : State} {fs : List State} (h : s.kind = .value) (hf : f.CallsValue)
      (hr : Nested (f :: fs)) : Nested (s :: f :: fs)
  | part {s : State} {fs : List State} (h : s.kind = .part) (hr : Nested (.valueEnd :: fs)) :
      Nested (s :: .valueEnd :: fs)
  | name {s : State} {fs : List State} (h : s.kind = .name)
      (hr : Nested (.object .named .base :: fs)) : Nested (s :: .object .named .base :: fs)

/-- A bound on the transitions of the next byte. -/
def State.weight : State → ℕ
  | .number .start | .array .start _ | .object .start _ | .string _ | .name _ => 1
  | .literal _ => 1
  | .value _ => 2
  | .valueEnd => 4
  | .number _ => 5
  | _ => 3

variable {j : Json} {cs : State}

theorem Nested.replace {s s' : State} {fs : List State} (h : Nested (s :: fs))
    (hkind : s'.kind = s.kind) : Nested (s' :: fs) := by
  cases h with
  | main h => exact .main (hkind.trans h)
  | value h hf hr => exact .value (hkind.trans h) hf hr
  | part h hr => exact .part (hkind.trans h) hr
  | name h hr => exact .name (hkind.trans h) hr

theorem Nested.below_value {s : State} {fs : List State} (h : Nested (s :: fs))
    (hkind : s.kind = .value) : ∃ f gs, fs = f :: gs ∧ f.CallsValue ∧ Nested (f :: gs) := by
  cases h with
  | value _ hf hr => exact ⟨_, _, rfl, hf, hr⟩
  | main h => rw [h] at hkind; cases hkind
  | part h => rw [h] at hkind; cases hkind
  | name h => rw [h] at hkind; cases hkind

theorem Nested.below_part {s : State} {fs : List State} (h : Nested (s :: fs))
    (hkind : s.kind = .part) : ∃ gs, fs = .valueEnd :: gs ∧ Nested (.valueEnd :: gs) := by
  cases h with
  | part _ hr => exact ⟨_, rfl, hr⟩
  | main h => rw [h] at hkind; cases hkind
  | value h => rw [h] at hkind; cases hkind
  | name h => rw [h] at hkind; cases hkind

theorem Nested.below_name {s : State} {fs : List State} (h : Nested (s :: fs))
    (hkind : s.kind = .name) :
    ∃ gs, fs = .object .named .base :: gs ∧ Nested (.object .named .base :: gs) := by
  cases h with
  | name _ hr => exact ⟨_, rfl, hr⟩
  | main h => rw [h] at hkind; cases hkind
  | value h => rw [h] at hkind; cases hkind
  | part h => rw [h] at hkind; cases hkind

theorem State.CallsValue.weight_lt {f : State} (h : f.CallsValue) : f.weight < State.valueEnd.weight := by
  cases h with
  | between => exact Nat.lt_succ_self 3
  | element => decide
  | field => decide

/-- What a transition keeps. -/
structure Sound (j : Json) (m : Move) : Prop where
  nested : Nested (m.json.cs :: m.json.stack)
  calls : ∀ ts, applyAll m.calls (j.nodes ++ ts) = some (m.json.nodes ++ ts)
  hold : m.hold = true → m.json.cs.weight < j.cs.weight

theorem Sound.stay (h : Nested (j.cs :: j.stack)) (hkind : cs.kind = j.cs.kind)
    (hnodes : cs.nodes = j.cs.nodes) {error dot exp : Bool} {buf : Text} :
    Sound j ⟨⟨cs, j.stack, error, buf, dot, exp⟩, [], false⟩ where
  nested := h.replace hkind
  calls ts := by
    simp only [applyAll, nodes, List.flatMap_cons, hnodes]
  hold := Bool.noConfusion

theorem Sound.goto (h : Nested (j.cs :: j.stack)) (hkind : cs.kind = j.cs.kind)
    (hnodes : cs.nodes = j.cs.nodes) : Sound j (j.goto cs) :=
  .stay h hkind hnodes

theorem Sound.fail (h : Nested (j.cs :: j.stack)) : Sound j j.fail := .stay h rfl rfl

theorem Sound.fcall {calls : List TreeCall} {target callee : State}
    (hnested : Nested (callee :: target :: j.stack))
    (hcalls : ∀ ts, applyAll calls (j.cs.nodes ++ ts) = some (callee.nodes ++ (target.nodes ++ ts)))
    (hweight : callee.weight < j.cs.weight) : Sound j (j.fcall calls target callee) where
  nested := hnested
  calls ts := by
    simp only [nodes, Json.fcall, List.flatMap_cons, List.append_assoc]
    exact hcalls _
  hold _ := hweight

theorem Sound.callValue {target : State} (h : Nested (j.cs :: j.stack)) (htarget : target.CallsValue)
    (hkind : target.kind = j.cs.kind) (hnodes : target.nodes = j.cs.nodes)
    (hweight : 2 < j.cs.weight) : Sound j (j.callValue target) := by
  refine .fcall (.value rfl htarget (h.replace hkind)) ?_ hweight
  intro ts
  rw [← hnodes]
  rfl

/-- A call of a number, a string, an array or an object, from `value`. -/
theorem Sound.callPart {i : Ignore} {type : NodeType} {callee : State} (hcs : j.cs = .value i)
    (h : Nested (j.cs :: j.stack)) (hkind : callee.kind = .part) (hnodes : callee.nodes = [type])
    (hweight : callee.weight = 1) : Sound j (j.fcall [.push type] .valueEnd callee) := by
  refine .fcall (.part hkind (h.replace ?_)) ?_ ?_
  · rw [hcs]
    rfl
  · intro ts
    rw [hcs, hnodes]
    rfl
  · rw [hcs, hweight]
    exact Nat.lt_succ_self 1

theorem Sound.callName {o : ObjectState} {i : Ignore} (hcs : j.cs = .object o i)
    (h : Nested (j.cs :: j.stack)) (hnodes : (State.object o i).nodes = [.jsonObject])
    (hweight : (State.object o i).weight = 3) : Sound j j.callName := by
  refine .fcall (.name rfl (h.replace ?_)) ?_ ?_
  · rw [hcs]
    rfl
  · intro ts
    rw [hcs, hnodes]
    rfl
  · rw [hcs, hweight]
    decide

theorem Sound.fret {f : State} {fs : List State} {calls : List TreeCall} {hold : Bool}
    (hstack : j.stack = f :: fs) (hnested : Nested (f :: fs))
    (hcalls : ∀ ts, applyAll calls (j.cs.nodes ++ (f.nodes ++ ts)) = some (f.nodes ++ ts))
    (hweight : hold = true → f.weight < j.cs.weight) {error dot exp : Bool} {buf : Text} :
    Sound j (Json.fret ⟨j.cs, j.stack, error, buf, dot, exp⟩ calls hold) := by
  rw [Json.fret, hstack]
  refine ⟨hnested, ?_, hweight⟩
  intro ts
  simp only [nodes, hstack, List.flatMap_cons, List.append_assoc]
  exact hcalls _

theorem Sound.fretPart {calls : List TreeCall} {hold : Bool} (h : Nested (j.cs :: j.stack))
    (hkind : j.cs.kind = .part) (hcalls : ∀ ts, applyAll calls (j.cs.nodes ++ ts) = some ts)
    (hweight : hold = true → 4 < j.cs.weight) {error dot exp : Bool} {buf : Text} :
    Sound j (Json.fret ⟨j.cs, j.stack, error, buf, dot, exp⟩ calls hold) := by
  obtain ⟨fs, hstack, hr⟩ := h.below_part hkind
  exact .fret hstack hr hcalls hweight

theorem Sound.fretName {text : Text} {q : QuoteState} (hcs : j.cs = .name q)
    (h : Nested (j.cs :: j.stack)) {error dot exp : Bool} {buf : Text} :
    Sound j (Json.fret ⟨j.cs, j.stack, error, buf, dot, exp⟩ [.setText text] false) := by
  obtain ⟨fs, hstack, hr⟩ := h.below_name (by rw [hcs]; rfl)
  refine .fret hstack hr ?_ Bool.noConfusion
  intro ts
  rw [hcs]
  rfl

theorem Sound.fretValue (hcs : j.cs = .valueEnd) (h : Nested (j.cs :: j.stack)) :
    Sound j (j.fret [] true) := by
  obtain ⟨f, fs, hstack, hf, hr⟩ := h.below_value (by rw [hcs]; rfl)
  refine .fret hstack hr ?_ ?_
  · intro ts
    rw [hcs]
    rfl
  · intro _
    rw [hcs]
    exact hf.weight_lt

/-! ## The submachines -/

variable {b : UInt8}

theorem ignoring_sound {i : Ignore} {place : Ignore → State} {other : Move}
    (h : Nested (j.cs :: j.stack)) (hkind : ∀ i, (place i).kind = j.cs.kind)
    (hnodes : ∀ i, (place i).nodes = j.cs.nodes) (hother : Sound j other) :
    Sound j (j.ignoring i b place other) := by
  unfold ignoring
  split
  · exact .goto h (hkind _) (hnodes _)
  · split_ifs
    · exact hother
    · exact .fail h

theorem nameStep_sound {q : QuoteState} (hcs : j.cs = .name q) (h : Nested (j.cs :: j.stack)) :
    Sound j (j.nameStep q b) := by
  have hstay (q' : QuoteState) {buf : Text} :
      Sound j ⟨⟨.name q', j.stack, j.error, buf, j.dot, j.exp⟩, [], false⟩ := by
    refine .stay h ?_ ?_ <;> rw [hcs] <;> rfl
  cases q <;> simp only [nameStep]
  case start => split_ifs; exacts [hstay _, .fail h]
  case body => split_ifs; exacts [.fretName hcs h, hstay _, .fail h, hstay _]
  case escape => split_ifs; exacts [hstay _, .fail h, hstay _]
  case hex n => cases n <;> simp only <;> split_ifs <;> first | exact hstay _ | exact .fail h

theorem stringStep_sound {q : QuoteState} (hcs : j.cs = .string q) (h : Nested (j.cs :: j.stack)) :
    Sound j (j.stringStep q b) := by
  have hstay (q' : QuoteState) {buf : Text} :
      Sound j ⟨⟨.string q', j.stack, j.error, buf, j.dot, j.exp⟩, [], false⟩ := by
    refine .stay h ?_ ?_ <;> rw [hcs] <;> rfl
  have hend {text : Text} : Sound j (Json.fret ⟨j.cs, j.stack, j.error, [], j.dot, j.exp⟩
      [.setText text, .popOr .jsonString] false) := by
    refine .fretPart h ?_ ?_ Bool.noConfusion
    · rw [hcs]
      rfl
    · intro ts
      rw [hcs]
      rfl
  cases q <;> simp only [stringStep]
  case start => split_ifs; exacts [hstay _, .fail h]
  case body => split_ifs; exacts [hend, hstay _, .fail h, hstay _]
  case escape => split_ifs; exacts [hstay _, .fail h, hstay _]
  case hex n => cases n <;> simp only <;> split_ifs <;> first | exact hstay _ | exact .fail h

theorem numberEnd_sound {n : NumberState} (hcs : j.cs = .number n) (h : Nested (j.cs :: j.stack))
    (hn : n ≠ .start) : Sound j j.numberEnd := by
  refine .fretPart h ?_ ?_ ?_
  · rw [hcs]
    rfl
  · intro ts
    rw [hcs]
    rfl
  · intro _
    rw [hcs]
    cases n
    case start => exact absurd rfl hn
    all_goals exact Nat.lt_succ_self 4

theorem numberStep_sound {n : NumberState} (hcs : j.cs = .number n) (h : Nested (j.cs :: j.stack)) :
    Sound j (j.numberStep n b) := by
  have hstay (n' : NumberState) {buf : Text} {dot exp : Bool} :
      Sound j ⟨⟨.number n', j.stack, j.error, buf, dot, exp⟩, [], false⟩ := by
    refine .stay h ?_ ?_ <;> rw [hcs] <;> rfl
  have hend (hn : n ≠ .start) := numberEnd_sound hcs h hn
  cases n <;> simp only [numberStep] <;> split_ifs
  all_goals first
    | exact hstay _
    | exact .fail h
    | exact hend NumberState.noConfusion

theorem arrayStep_sound {a : ArrayState} {i : Ignore} (hcs : j.cs = .array a i)
    (h : Nested (j.cs :: j.stack)) : Sound j (j.arrayStep a i b) := by
  have hstay (a' : ArrayState) (i' : Ignore) : Sound j (j.goto (.array a' i')) := by
    refine .goto h ?_ ?_ <;> rw [hcs] <;> rfl
  have hend : Sound j (j.fret [.popOr .jsonArray] false) := by
    refine .fretPart h ?_ ?_ Bool.noConfusion
    · rw [hcs]
      rfl
    · intro ts
      rw [hcs]
      rfl
  have hvalue (ha : a ≠ .start) : Sound j (j.callValue (.array .element .base)) := by
    refine .callValue h .element ?_ ?_ ?_ <;> rw [hcs]
    · rfl
    · rfl
    · cases a
      case start => exact absurd rfl ha
      all_goals exact Nat.lt_succ_self 2
  have hignore (a' : ArrayState) {other : Move} (hother : Sound j other) :
      Sound j (j.ignoring i b (.array a') other) := by
    refine ignoring_sound h ?_ ?_ hother <;> intro i <;> rw [hcs] <;> rfl
  cases a <;> simp only [arrayStep]
  case start => split_ifs; exacts [hstay _ _, .fail h]
  case opened =>
    refine hignore _ ?_
    split_ifs
    exacts [hvalue ArrayState.noConfusion, hend, .fail h]
  case element =>
    refine hignore _ ?_
    split_ifs
    exacts [hstay _ _, hend, .fail h]
  case comma =>
    refine hignore _ ?_
    split_ifs
    exacts [hvalue ArrayState.noConfusion, .fail h]

theorem objectStep_sound {o : ObjectState} {i : Ignore} (hcs : j.cs = .object o i)
    (h : Nested (j.cs :: j.stack)) : Sound j (j.objectStep o i b) := by
  have hkind (o' : ObjectState) (i' : Ignore) : (State.object o' i').kind = j.cs.kind := by
    rw [hcs]
    rfl
  have hignore (hnodes : ∀ i', (State.object o i').nodes = (State.object o i).nodes) {other : Move}
      (hother : Sound j other) : Sound j (j.ignoring i b (.object o) other) := by
    refine ignoring_sound h (hkind o) ?_ hother
    intro i'
    rw [hcs]
    exact hnodes i'
  have hend {calls : List TreeCall}
      (hcalls : ∀ ts, applyAll calls ((State.object o i).nodes ++ ts) = some ts) :
      Sound j (j.fret calls false) := by
    refine .fretPart h ?_ ?_ Bool.noConfusion
    · rw [hcs]
      rfl
    · rw [hcs]
      exact hcalls
  cases o <;> simp only [objectStep]
  case start =>
    split_ifs
    exacts [.goto h (hkind _ _) (by rw [hcs]; rfl), .fail h]
  case opened =>
    refine hignore (fun _ => rfl) ?_
    split_ifs
    exacts [.callName hcs h rfl rfl, hend fun _ => rfl, .fail h]
  case named =>
    refine hignore (fun _ => rfl) ?_
    split_ifs
    exacts [.goto h (hkind _ _) (by rw [hcs]; rfl), .fail h]
  case colon =>
    refine hignore (fun _ => rfl) ?_
    split_ifs
    · refine .callValue h .field (hkind _ _) ?_ ?_ <;> rw [hcs]
      · rfl
      · exact Nat.lt_succ_self 2
    · exact .fail h
  case field =>
    refine hignore (fun _ => rfl) ?_
    split_ifs
    · -- the only transition within a submachine that closes a node
      refine ⟨h.replace (hkind _ _), ?_, Bool.noConfusion⟩
      intro ts
      simp only [nodes, hcs, List.flatMap_cons, List.append_assoc]
      rfl
    · exact hend fun _ => rfl
    · exact .fail h
  case comma =>
    refine hignore (fun _ => rfl) ?_
    split_ifs
    exacts [.callName hcs h rfl rfl, .fail h]

theorem beginValue_sound {i : Ignore} (hcs : j.cs = .value i) (h : Nested (j.cs :: j.stack)) :
    Sound j (j.beginValue b) := by
  have hliteral (rest : Text) : Sound j (j.goto (.literal rest)) := by
    refine .goto h ?_ ?_ <;> rw [hcs] <;> rfl
  unfold beginValue
  split_ifs
  · exact hliteral _
  · exact hliteral _
  · exact hliteral _
  · exact hliteral _
  · exact hliteral _
  · exact .callPart hcs h rfl rfl rfl
  · exact .callPart hcs h rfl rfl rfl
  · exact .callPart hcs h rfl rfl rfl
  · exact .callPart hcs h rfl rfl rfl
  · exact .fail h

theorem literalStep_sound {rest : Text} (hcs : j.cs = .literal rest) (h : Nested (j.cs :: j.stack)) :
    Sound j (j.literalStep rest b) := by
  unfold literalStep
  split
  · exact .fail h
  · split_ifs
    · refine ⟨h.replace (by rw [hcs]; rfl), ?_, Bool.noConfusion⟩
      intro ts
      simp only [nodes, hcs, List.flatMap_cons]
      rfl
    · exact .fail h
  · split_ifs
    · refine .goto h ?_ ?_ <;> rw [hcs] <;> rfl
    · exact .fail h

theorem State.main_facts {s : State} (h : s.kind = .main) : s.nodes = [] ∧ s.weight = 3 := by
  cases s <;> first | exact ⟨rfl, rfl⟩ | cases h

theorem main_goto {target : State} (hcs : j.cs.kind = .main) (h : Nested (j.cs :: j.stack))
    (htarget : target.kind = .main) : Sound j (j.goto target) := by
  refine .goto h (htarget.trans hcs.symm) ?_
  rw [(State.main_facts hcs).1, (State.main_facts htarget).1]

theorem main_call (hcs : j.cs.kind = .main) (h : Nested (j.cs :: j.stack)) (places : List Ignore) :
    Sound j (j.callValue (.between places)) := by
  obtain ⟨hnodes, hweight⟩ := State.main_facts hcs
  refine .callValue h (.between places) hcs.symm hnodes.symm ?_
  rw [hweight]
  exact Nat.lt_succ_self 2

theorem trans_sound (h : Nested (j.cs :: j.stack)) (b : UInt8) : Sound j (j.trans b) := by
  cases hcs : j.cs with
  | start =>
    have hmain : j.cs.kind = .main := by rw [hcs]; rfl
    simp only [trans, hcs]
    split_ifs
    exacts [main_goto hmain h rfl, main_call hmain h _, .fail h]
  | guard rest =>
    have hmain : j.cs.kind = .main := by rw [hcs]; rfl
    match rest with
    | [] =>
      simp only [trans, hcs]
      exact .fail h
    | [c] =>
      simp only [trans, hcs]
      split_ifs
      exacts [main_goto hmain h rfl, .fail h]
    | c :: d :: rest =>
      simp only [trans, hcs]
      split_ifs
      exacts [main_goto hmain h rfl, .fail h]
  | first =>
    have hmain : j.cs.kind = .main := by rw [hcs]; rfl
    simp only [trans, hcs]
    split_ifs
    exacts [main_call hmain h _, .fail h]
  | between places =>
    have hmain : j.cs.kind = .main := by rw [hcs]; rfl
    simp only [trans, hcs]
    split_ifs
    exacts [main_call hmain h _, .fail h, main_goto hmain h rfl]
  | value i =>
    simp only [trans, hcs]
    refine ignoring_sound h ?_ ?_ (beginValue_sound hcs h) <;> intro i <;> rw [hcs] <;> rfl
  | literal rest => simpa only [trans, hcs] using literalStep_sound hcs h
  | valueEnd => simpa only [trans, hcs] using Sound.fretValue hcs h
  | number n => simpa only [trans, hcs] using numberStep_sound hcs h
  | string q => simpa only [trans, hcs] using stringStep_sound hcs h
  | name q => simpa only [trans, hcs] using nameStep_sound hcs h
  | array a i => simpa only [trans, hcs] using arrayStep_sound hcs h
  | object o i => simpa only [trans, hcs] using objectStep_sound hcs h

/-! ## Bytes and texts -/

theorem applyAll_append (cs ds : List TreeCall) (ts : List NodeType) :
    applyAll (cs ++ ds) ts = (applyAll cs ts).bind (applyAll ds) := by
  induction cs generalizing ts with
  | nil => rfl
  | cons c cs ih =>
    rw [List.cons_append, applyAll, applyAll, Option.bind_assoc]
    exact congrArg _ (funext ih)

theorem step_sound (h : Nested (j.cs :: j.stack)) (n : ℕ) (b : UInt8) :
    Nested ((step n j b).1.cs :: (step n j b).1.stack) ∧
      ∀ ts, applyAll (step n j b).2 (j.nodes ++ ts) = some ((step n j b).1.nodes ++ ts) := by
  induction n generalizing j with
  | zero => exact ⟨h, fun _ => rfl⟩
  | succ n ih =>
    have hm := trans_sound h b
    rw [step]
    simp only
    split_ifs
    · obtain ⟨hnested, hcalls⟩ := ih hm.nested
      refine ⟨hnested, ?_⟩
      intro ts
      rw [applyAll_append, hm.calls]
      exact hcalls ts
    · exact ⟨hm.nested, hm.calls⟩

theorem step_add (h : Nested (j.cs :: j.stack)) (b : UInt8) {n : ℕ} (hn : j.cs.weight ≤ n) (k : ℕ) :
    step (n + k) j b = step n j b := by
  induction n generalizing j with
  | zero =>
    have hpos : 0 < j.cs.weight := by
      unfold State.weight
      split <;> decide
    omega
  | succ n ih =>
    have hm := trans_sound h b
    rw [Nat.succ_add, step, step]
    simp only
    split_ifs with hhold
    · have hlt := hm.hold hhold
      rw [ih hm.nested (by omega)]
    · rfl

/-- `reads` is enough for every byte. -/
theorem step_reads (h : Nested (j.cs :: j.stack)) (b : UInt8) (k : ℕ) :
    step (reads + k) j b = step reads j b := by
  refine step_add h b ?_ k
  unfold State.weight
  split <;> decide

theorem run_error (h : j.error = true) (text : Text) : j.run text = j := by
  induction text with
  | nil => rfl
  | cons b text ih =>
    rw [run, List.foldl_cons, if_pos h]
    exact ih

theorem run_append (text more : Text) : j.run (text ++ more) = (j.run text).run more :=
  List.foldl_append

/-- The tree has the open nodes of the machine, which runs as it does without the tree. -/
theorem receive_open {v₀ v : VPT} {ts : List NodeType} {data : Text} {r : Json × VPT}
    (h : Nested (j.cs :: j.stack)) (hopen : Open v₀ v (j.nodes ++ ts))
    (hr : j.receive v data = some r) :
    r.1 = j.run data ∧ Nested (r.1.cs :: r.1.stack) ∧ Open v₀ r.2 (r.1.nodes ++ ts) := by
  induction data generalizing j v with
  | nil =>
    cases hr
    exact ⟨rfl, h, hopen⟩
  | cons b data ih =>
    rw [receive] at hr
    split_ifs at hr with herror
    · cases hr
      exact ⟨(run_error herror _).symm, h, hopen⟩
    · obtain ⟨⟨w, ok⟩, hw, hr⟩ := Option.bind_eq_some_iff.mp hr
      obtain ⟨hnested, hcalls⟩ := step_sound h reads b
      obtain ⟨rfl, hopen'⟩ := hopen.performAll (hcalls ts) hw
      obtain ⟨heq, hrest⟩ := ih hnested hopen' hr
      refine ⟨?_, hrest⟩
      rw [heq, run, run, List.foldl_cons, if_neg herror]

theorem Nested.named_mem {l : List State} {q : QuoteState} (h : Nested l) (hs : .name q ∈ l) :
    .object .named .base ∈ l := by
  induction h with
  | main h =>
    rw [← List.mem_singleton.mp hs] at h
    cases h
  | value h hf hr ih =>
    obtain rfl | hs := List.mem_cons.mp hs
    · cases h
    · exact List.mem_cons_of_mem _ (ih hs)
  | part h hr ih =>
    obtain rfl | hs := List.mem_cons.mp hs
    · cases h
    · exact List.mem_cons_of_mem _ (ih hs)
  | name h hr ih => exact List.mem_cons_of_mem _ List.mem_cons_self

/-- Nothing is open exactly if the machine is outside of everything. -/
theorem nodes_eq_nil_iff (h : Nested (j.cs :: j.stack)) : j.nodes = [] ↔ j.outside = true := by
  rw [nodes, outside, List.flatMap_eq_nil_iff, List.all_eq_true]
  constructor
  · intro hnil s hs
    have hnodes := hnil s hs
    cases s
    case name q => cases hnil _ (h.named_mem hs)
    case object o i => cases o <;> cases hnodes
    all_goals first | rfl | cases hnodes
  · intro hall s hs
    have hout := hall s hs
    cases s <;> first | rfl | cases hout

end Json

end Netp.Parse
