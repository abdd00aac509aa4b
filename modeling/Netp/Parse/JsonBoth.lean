import Netp.Parse.JsonPlain

/-! # The two JSON parsers on a text

`JSON_parse` reads a text and the zero byte behind it, `JsonParser` the pieces it receives, with a byte
of `ignore*` behind the text. On a text that the first accepts the second reports no error, and the one
node under `LangJson` is of the shape of the `Value` where the text is plain (`parsers_agree_iff`).
-/

namespace Netp.Parse.JsonBoth
open Netp.Lib Netp.Parse.Doc
open Netp.Parse.Json (Ignore NumberState QuoteState ArrayState ObjectState)
set_option autoImplicit false

/-- `start`, and `receive` for the pieces of a text. -/
def feed (u : VPT) (segs : List Text) : Option (Json × VPT) :=
  (u.push .langJson).bind fun v => segs.foldlM (fun r data => r.1.receive r.2 data) (Json.init, v)

/-- No error, and the value over again under `LangJson`. -/
def Builds (r : Json × VPT) (x : Value) : Prop :=
  r.1.error = false ∧ ∃ n, r.2.top = .mk .langJson [] [n] ∧ sameShape x n = true

variable {v₀ v w : VPT} {s : JsonParse} {j : Json} {b : UInt8} {ok : Bool}

/-! ## Pieces -/

theorem receive_error (h : j.error = true) (v : VPT) (data : Text) : j.receive v data = some (j, v) := by
  cases data with
  | nil => rfl
  | cons b data => simp [Json.receive, h]

theorem receive_append (j : Json) (v : VPT) (data more : Text) :
    j.receive v (data ++ more) = (j.receive v data).bind fun r => r.1.receive r.2 more := by
  induction data generalizing j v with
  | nil => rfl
  | cons b data ih =>
      simp only [List.cons_append, Json.receive]
      split
      · next h => rw [Option.bind_some, receive_error h]
      · rw [Option.bind_assoc]
        exact congrArg _ (funext fun u => ih _ _)

theorem feed_eq (u : VPT) (segs : List Text) :
    feed u segs = (u.push .langJson).bind fun v => Json.init.receive v segs.flatten := by
  refine congrArg _ (funext fun v => ?_)
  generalize Json.init = j
  induction segs generalizing j v with
  | nil => rfl
  | cons data segs ih =>
      rw [List.flatten_cons, receive_append, List.foldlM_cons]
      exact congrArg _ (funext fun r => ih r.2 r.1)

/-! ## The text -/

theorem run_error (h : s.error = true) (text : Text) : s.run text = s := by
  induction text with
  | nil => rfl
  | cons b text ih =>
      simp only [JsonParse.run, List.foldl_cons, h, if_true]
      exact ih

theorem run_cons (h : s.error = false) (b : UInt8) (text : Text) :
    s.run (b :: text) = (s.step Json.reads b).run text := by
  simp [JsonParse.run, h]

theorem run_append (s : JsonParse) (text more : Text) : s.run (text ++ more) = (s.run text).run more :=
  List.foldl_append

theorem good_of_run {text : Text} (h : (s.run text).error = false) : s.error = false := by
  by_contra he
  rw [Bool.not_eq_false] at he
  rw [run_error he, he] at h
  cases h

theorem receive_cons {r : Json × VPT} (h : j.error = false) {data : Text}
    (hr : j.receive v (b :: data) = some r) : ∃ w ok, v.performAll (j.step Json.reads b).2 = some (w, ok) ∧
      (if ok then (j.step Json.reads b).1 else { j with error := true }).receive w data = some r := by
  simp only [Json.receive, h, Bool.false_eq_true, if_false] at hr
  obtain ⟨⟨w, ok⟩, hw, hr⟩ := Option.bind_eq_some_iff.mp hr
  exact ⟨w, ok, hw, hr⟩

theorem rank_le (cs : JsonParse.State) : rank cs ≤ 3 := by
  unfold rank
  split <;> decide

theorem run_follows {r : Json × VPT} (h : Sim v₀ s j v) (text : Text) (hnul : ∀ c ∈ text, c ≠ 0)
    (hgood : (s.run text).error = false) (hr : j.receive v text = some r) :
    Sim v₀ (s.run text) r.1 r.2 ∧ clean (s.run text) = (clean s && plainFrom (mode s.cs) text) := by
  induction text generalizing s j v with
  | nil =>
      cases hr
      exact ⟨h, (Bool.and_true _).symm⟩
  | cons b text ih =>
      obtain ⟨w, ok, hw, hr⟩ := receive_cons h.good' hr
      rw [run_cons h.good] at hgood ⊢
      have hstep : (s.step Json.reads b).error = false := good_of_run hgood
      obtain ⟨rfl, hsim, hmode, hclean⟩ := step_follows h (hnul b (by simp)) Json.reads
        ((rank_le _).trans (by decide)) hstep hw
      obtain ⟨hend, hplain⟩ := ih hsim (fun c hc => hnul c (by simp [hc])) hgood hr
      refine ⟨hend, ?_⟩
      rw [hplain, hclean, hmode, plainFrom, Bool.and_assoc]

/-! ## The first byte -/

/-- `JSON_tree` in the value of `main`. -/
def inValue : JsonParse := { JsonParse.init with cs := .value .base, stack := [.last], vs := [.empty] }

/-- `JSON` in the first value of `main`. -/
def inValue' : Json := { Json.init with cs := .value .base, stack := [.between [.base]] }

theorem sim_inValue (v : VPT) : Sim v inValue inValue' v where
  good := rfl
  good' := rfl
  cs := rfl
  stack := rfl
  buffer := rfl
  tree := ⟨[], rfl, .last ⟨rfl, rfl, rfl⟩⟩
  count := Nat.add_comm _ _ ▸ Nat.add_comm _ _ ▸ rfl

/-- What can be the first byte of a value is not excluded in `main`. -/
theorem start_step (hgood : (JsonParse.init.step Json.reads b).error = false) :
    JsonParse.init.step Json.reads b = inValue.step 4 b ∧
      Json.init.step Json.reads b = inValue'.step 4 b := by
  refine ⟨rfl, ?_⟩
  have hchar : Json.isValueChar b = true := by
    by_contra h
    have hb : b ∈ [41, 125, 39, 46, 93] := by
      by_contra hb
      exact h (decide_eq_true hb)
    simp only [List.mem_cons, List.not_mem_nil, or_false] at hb
    rcases hb with rfl | rfl | rfl | rfl | rfl <;> exact absurd hgood (by decide)
  have h41 : b ≠ 41 := by
    rintro rfl
    exact absurd hchar (by decide)
  have htrans : Json.init.trans b = ⟨inValue', [], true⟩ := by
    simp [Json.trans, Json.init, h41, hchar, Json.callValue, Json.fcall, inValue']
  simp only [Json.reads, Json.step, htrans, if_true, List.nil_append]

/-! ## The last byte -/

theorem isSome_iff : (Ignore.base.step b).isSome = true ↔ b = 32 ∨ b = 9 ∨ b = 13 ∨ b = 10 ∨ b = 47 := by
  simp only [Ignore.step]
  split_ifs with h h' <;> simp_all
  tauto

/-- Behind a number and a value a byte is not looked at, but for the bytes of a number. -/
theorem end_trans (h : (∃ n, j.cs = .number n) ∨ j.cs = .valueEnd)
    (hb : (Ignore.base.step b).isSome = true) : j.trans b = j.trans 0 := by
  rcases h with ⟨n, h⟩ | h
  · simp only [Json.trans, h]
    rcases isSome_iff.mp hb with rfl | rfl | rfl | rfl | rfl <;> cases n <;> rfl
  · simp only [Json.trans, h]

/-- The zero byte ends a number or a value, and is an error elsewhere in it. -/
theorem zero_trans (h : Sim v₀ s j v) (hlast : s.cs ≠ .last) (hgood : (s.trans 0).json.error = false) :
    if (s.trans 0).hold then (∃ n, s.cs = .number n) ∨ s.cs = .valueEnd
      else (s.trans 0).json.cs ≠ .final := by
  have ht := h.tree
  -- the end of a part, with the byte held
  have hheld {s' : JsonParse} (hgood : (s'.fret true).json.error = false) :
      (s'.fret true).hold = true := by
    unfold JsonParse.fret at hgood ⊢
    split at hgood
    · cases hgood
    · rfl
  cases hcs : s.cs with
  | start => simp only [Tree, hcs] at ht
  | final => simp only [Tree, hcs] at ht
  | last => exact absurd hcs hlast
  | valueEnd =>
      simp only [JsonParse.trans, hcs] at hgood ⊢
      split at hgood
      · cases hgood
      · next s' hpop => rw [if_pos (hheld hgood)]; exact .inr trivial
  | number n =>
      have hzero : s.numberStep n 0 = s.numberEnd ∨ s.numberStep n 0 = s.fail := by
        cases n <;> simp [JsonParse.numberStep, Json.isDigit, Json.isE]
      simp only [JsonParse.trans, hcs] at hgood ⊢
      rcases hzero with hz | hz
      · rw [hz] at hgood ⊢
        rw [if_pos (show s.numberEnd.hold = true from hheld hgood)]
        exact .inl ⟨n, rfl⟩
      · rw [hz] at hgood
        cases hgood
  | value i =>
      cases i <;> simp [JsonParse.trans, hcs, JsonParse.ignoring, Ignore.step, JsonParse.beginValue,
        Json.isDigit, JsonParse.goto, JsonParse.fail]
  | literal l rest =>
      simp only [JsonParse.trans, hcs]
      rcases rest with _ | ⟨c, _ | ⟨d, rest⟩⟩ <;> simp only [JsonParse.literalStep] <;> try split
      all_goals simp [JsonParse.fail, JsonParse.goto, hcs]
  | string q =>
      rcases q with _ | _ | _ | _ | n <;>
        simp [JsonParse.trans, hcs, JsonParse.stringStep, JsonParse.fail, Json.isHexDigit, Json.isDigit]
  | name q =>
      rcases q with _ | _ | _ | _ | n <;>
        simp [JsonParse.trans, hcs, JsonParse.nameStep, JsonParse.fail, Json.isHexDigit, Json.isDigit]
  | array a i =>
      cases a <;> cases i <;> simp [JsonParse.trans, hcs, JsonParse.arrayStep, JsonParse.ignoring,
        Ignore.step, JsonParse.goto, JsonParse.fail, Json.isBeginValue, Json.isDigit]
  | object o i =>
      cases o <;> cases i <;> simp [JsonParse.trans, hcs, JsonParse.objectStep, JsonParse.ignoring,
        Ignore.step, JsonParse.goto, JsonParse.fail, Json.isBeginValue, Json.isDigit]

/-- In `main` behind the value a byte of `ignore*` is read by `ignore*` and by the next value. -/
theorem between_step (hgood : j.error = false) (hcs : j.cs = .between [.base])
    (hb : (Ignore.base.step b).isSome = true) (n : ℕ) :
    (j.step n b).1.error = false ∧ (j.step n b).2 = [] := by
  have hchar : Json.isValueChar b = true := by
    rcases isSome_iff.mp hb with rfl | rfl | rfl | rfl | rfl <;> rfl
  obtain ⟨i, hi⟩ := Option.isSome_iff_exists.mp hb
  match n with
  | 0 => exact ⟨hgood, rfl⟩
  | 1 => simp [Json.step, Json.trans, hcs, hchar, Json.callValue, Json.fcall, hgood]
  | n + 2 =>
      simp [Json.step, Json.trans, hcs, hchar, Json.callValue, Json.fcall, Json.ignoring, hi, Json.goto,
        hgood]

/-- The end of the text: `JSON_tree` reads the zero byte, and `JSON` the byte behind the text. -/
theorem last_step (h : Sim v₀ s j v) (hb : (Ignore.base.step b).isSome = true) (n : ℕ)
    (hfinal : (s.step n 0).cs = .final) (hgood : (s.step n 0).error = false)
    (hw : v.performAll (j.step n b).2 = some (w, ok)) :
    ok = true ∧ (j.step n b).1.error = false ∧ ∃ d : Doc, (s.step n 0).root = some d.value ∧
      Holds w.vt v₀.vt.type v₀.vt.text (v₀.vt.children ++ [d.node]) ∧ clean s = d.plain := by
  induction n generalizing s j v with
  | zero =>
      have ht := h.tree
      simp only [JsonParse.step] at hfinal
      simp only [Tree, hfinal] at ht
  | succ n ih =>
      by_cases hlast : s.cs = .last
      · have ht := h.tree
        simp only [Tree, hlast] at ht
        obtain ⟨hstack, hvs, d, hroot, hnode⟩ := ht
        have hcs : j.cs = .between [.base] := by rw [h.cs, hlast]; rfl
        obtain ⟨hnext, hcalls⟩ := between_step h.good' hcs hb (n + 1)
        rw [hcalls] at hw
        cases hw
        refine ⟨rfl, hnext, d, ?_, hnode, ?_⟩
        · simpa [JsonParse.step, JsonParse.trans, hlast, JsonParse.goto] using hroot
        · simp [clean, hlast, hvs, hroot, hstack, plainState, plainRoot, plainValue_value]
      · have hmove : (s.trans 0).json.error = false := by
          by_contra he
          rw [Bool.not_eq_false] at he
          simp only [JsonParse.step] at hgood
          split at hgood
          · rw [step_error he] at hgood
            cases hgood
          · rw [he] at hgood
            cases hgood
        have hzero := zero_trans h hlast hmove
        obtain ⟨hhold, hcalls⟩ := trans_follows h hlast hmove
        obtain ⟨-, hclean, -⟩ := trans_scans h hlast hmove
        simp only [JsonParse.step] at hfinal hgood ⊢
        split at hzero
        · next hh =>
            have hsame : j.trans b = j.trans 0 := by
              refine end_trans ?_ hb
              rcases hzero with ⟨n, hn⟩ | hn
              · exact .inl ⟨n, by rw [h.cs, hn]; rfl⟩
              · exact .inr (by rw [h.cs, hn]; rfl)
            rw [hh, if_pos rfl] at hfinal hgood ⊢
            rw [hh, Bool.true_or, Bool.and_true] at hclean
            simp only [Json.step, hsame, hhold, hh, if_true] at hw ⊢
            rw [performAll_append] at hw
            obtain ⟨⟨u, ok'⟩, hu, hw⟩ := Option.bind_eq_some_iff.mp hw
            obtain ⟨rfl, hsim⟩ := hcalls u ok' hu
            rw [← hclean]
            exact ih hsim hfinal hgood hw
        · next hh =>
            rw [if_neg hh] at hfinal
            exact absurd hfinal hzero

/-! ## The two parsers -/

theorem feed_builds {text : Text} {x : Value} (hnul : ∀ c ∈ text, c ≠ 0) (hx : jsonParse text = some x)
    (hb : (Ignore.base.step b).isSome = true) {u : VPT} {segs : List Text}
    (hsegs : segs.flatten = text ++ [b]) {r : Json × VPT} (hr : feed u segs = some r) :
    r.1.error = false ∧ ∃ d : Doc, x = d.value ∧ r.2.top = .mk .langJson [] [d.node] ∧
      plainText text = d.plain := by
  rw [feed_eq, hsegs] at hr
  obtain ⟨v, hv, hr⟩ := Option.bind_eq_some_iff.mp hr
  have hroot := (push_some hv).1
  simp only [jsonParse] at hx
  split at hx
  case isFalse => cases hx
  case isTrue hend =>
    obtain ⟨hfinal, hgood⟩ := hend
    cases text with
    | nil => exact absurd hgood (by decide)
    | cons c text =>
        rw [run_append] at hfinal hgood hx
        have hall := good_of_run hgood
        rw [run_cons (s := JsonParse.init) rfl] at hfinal hgood hx hall
        obtain ⟨hs, hj⟩ := start_step (good_of_run hall)
        obtain ⟨w, ok, hw, hr⟩ := receive_cons rfl hr
        rw [hs] at hfinal hgood hx hall
        rw [hj] at hw hr
        obtain ⟨rfl, hsim, hmode, hclean⟩ := step_follows (sim_inValue v) (hnul c (by simp)) 4 (by decide)
          (good_of_run hall) hw
        -- the bytes of the text behind the first
        rw [if_pos rfl, List.append_eq, receive_append] at hr
        obtain ⟨mid, hmid, hr⟩ := Option.bind_eq_some_iff.mp hr
        obtain ⟨hsim, hplain⟩ := run_follows hsim text (fun c hc => hnul c (by simp [hc])) hall hmid
        -- and the last one
        obtain ⟨w', ok, hw', hr⟩ := receive_cons hsim.good' hr
        rw [run_cons hall] at hfinal hgood hx
        obtain ⟨rfl, herror, d, hd, hnode, hd'⟩ := last_step hsim hb Json.reads hfinal hgood hw'
        cases hr
        refine ⟨herror, d, ?_, ?_, ?_⟩
        · exact Option.some.inj (hx.symm.trans hd)
        · simp only [VPT.top, hnode.type, hnode.text, hnode.children, hroot.type, hroot.text,
            hroot.children, List.nil_append]
        · rw [← hd', hplain, hclean, hmode]
          rfl

/-- On a text that `JSON_parse` accepts, `JsonParser` builds the value over again exactly where the text
is plain. -/
theorem parsers_agree_iff (text : Text) (x : Value) (hnul : ∀ c ∈ text, c ≠ 0)
    (hx : jsonParse text = some x) (b : UInt8) (hb : (Ignore.base.step b).isSome = true) (u : VPT)
    (segs : List Text) (hsegs : segs.flatten = text ++ [b]) (r : Json × VPT) (hr : feed u segs = some r) :
    Builds r x ↔ plainText text = true := by
  obtain ⟨hgood, d, rfl, htop, hplain⟩ := feed_builds hnul hx hb hsegs hr
  rw [hplain, ← sameShape_iff]
  constructor
  · rintro ⟨-, n, hn, hsame⟩
    rw [htop] at hn
    cases hn
    exact hsame
  · exact fun hsame => ⟨hgood, d.node, htop, hsame⟩

theorem parsers_agree_array : ∃ r, feed (initVpt []) [bytes "[1.50", bytes ",null] "] = some r ∧
    Builds r (.array [.number (bytes "1.5"), .null]) :=
  ⟨_, rfl, (parsers_agree_iff (bytes "[1.50,null]") _ (by decide +kernel) rfl 32 rfl (initVpt [])
    [bytes "[1.50", bytes ",null] "] rfl _ rfl).mpr rfl⟩

/-- `true` is built as a `JsonNull`. -/
theorem true_built_as_null : jsonParse (bytes "true") = some .true ∧
    ∃ r, feed (initVpt []) [bytes "true "] = some r ∧ ¬Builds r .true := by
  refine ⟨rfl, _, rfl, ?_⟩
  rintro ⟨-, n, hn, hsame⟩
  cases hn
  exact absurd hsame (by decide)

-- and the name of a field has the quotes
example : (feed (initVpt []) [bytes "\x7b\"a\":1\x7d "]).map (fun r => r.2.vt.children) = some
    [.mk .jsonObject [] [.mk .jsonField (bytes "\"a\"") [.mk .jsonNumber (bytes "1") []]]] := rfl

end Netp.Parse.JsonBoth
