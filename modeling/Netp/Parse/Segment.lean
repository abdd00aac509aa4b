import Netp.Parse.BlockExec

/-! # The HTTP parsers do not see how a stream is cut

Within a `receive` call the bytes from `from` to the position have been read but not shipped. `Sim`
relates a parser at a position to its view, in which every byte of an open body has been delivered
already; each call keeps the relation (`Sim.call`), and the end of a `receive` call ships what is left.
So a `receive` call is the machine byte by byte (`Machine.byteWise`).
-/

namespace Netp.Parse
open Netp.Lib
set_option autoImplicit false

variable {σ : Type}

theorem trace_append (l m : List Effect) : trace (l ++ m) = trace l ++ trace m :=
  List.flatMap_append

@[simp] theorem trace_nil : trace [] = [] := rfl

@[simp] theorem trace_cons (e : Effect) (l : List Effect) : trace (e :: l) = e.obs ++ trace l := rfl

theorem extract_succ {data : Text} {f p : ℕ} {b : UInt8} (hf : f ≤ p) (hb : data[p]? = some b) :
    data.extract f (p + 1) = data.extract f p ++ [b] := by
  have hlen : p + 1 - f = (p - f) + 1 := by omega
  have hget : (data.drop f)[p - f]? = some b := by
    rw [List.getElem?_drop, Nat.add_sub_cancel' hf, hb]
  rw [List.extract_eq_take_drop, List.extract_eq_take_drop, hlen, List.take_add_one, hget]
  rfl

/-- `s`, at the position `p` of `data`, is seen as `v`. -/
structure Sim (data : Text) (p : ℕ) (s : Parser σ) (v : View σ) : Prop where
  core : s.core = v.core
  fault : s.fault = v.fault
  isOpen : s.bodyBlock.isOpen = v.isOpen
  output : s.bodyBlock.output = v.output
  closed : v.isOpen = false → v.trace = trace s.log
  pending : v.isOpen = true → ∃ d f, v.output = some d ∧ s.bodyBlock.fromPos = some f ∧ f ≤ p ∧
    v.trace = trace s.log ++ (data.extract f p).map (.byte d)

/-- The calls that lose nothing: the tree is called and a body is opened only while none is open, a body
is paused only while it is open, and resumed only where its destination is set. -/
def Call.Fits (isOpen : Bool) (output : Option Dest) : Call → Prop
  | .vpt _ => isOpen = false
  | .destination _ => isOpen = false
  | .start => isOpen = false
  | .pause => isOpen = true
  | .resume => isOpen = false ∧ output.isSome
  | _ => True

/-- Every call of a list fits where it is made. -/
def Fitting (b : UInt8) : View σ → List Call → Prop
  | _, [] => True
  | v, c :: cs => (v.fault = false → c.Fits v.isOpen v.output) ∧ Fitting b (v.call b c) cs

namespace Sim
variable {data : Text} {p : ℕ} {s : Parser σ} {v : View σ} {b : UInt8}

theorem of_closed (h : Sim data p s v) (hc : v.isOpen = false) (data' : Text) (q : ℕ) :
    Sim data' q s v where
  core := h.core
  fault := h.fault
  isOpen := h.isOpen
  output := h.output
  closed := h.closed
  pending ho := by rw [hc] at ho; cases ho

theorem ship (h : Sim data p s v) (ho : v.isOpen = true) (q : ℕ) :
    ∃ d f, v.output = some d ∧ f ≤ p ∧
      s.bodyBlock.ship data q = some (.receive d (data.extract f q)) ∧
      v.trace = trace s.log ++ (data.extract f p).map (.byte d) := by
  obtain ⟨d, f, hd, hf, hle, ht⟩ := h.pending ho
  refine ⟨d, f, hd, hle, ?_, ht⟩
  simp only [BlockExec.ship, h.output, hd, hf]

theorem null (h : Sim data p s v) : Sim data p { s with fault := true } { v with fault := true } where
  core := h.core
  fault := rfl
  isOpen := h.isOpen
  output := h.output
  closed := h.closed
  pending := h.pending

/-- A call that adds to the log and leaves the block alone, while no body is open. -/
theorem emit (h : Sim data p s v) (hc : v.isOpen = false) (e : Effect) :
    Sim data p { s with log := s.log ++ [e] } { v with trace := v.trace ++ e.obs } where
  core := h.core
  fault := h.fault
  isOpen := h.isOpen
  output := h.output
  closed _ := by rw [trace_append, h.closed hc, trace_cons, trace_nil, List.append_nil]
  pending ho := by rw [hc] at ho; cases ho

theorem silent (h : Sim data p s v) {e : Effect} (he : e.obs = []) :
    Sim data p { s with log := s.log ++ [e] } v where
  core := h.core
  fault := h.fault
  isOpen := h.isOpen
  output := h.output
  closed hc := by rw [trace_append, trace_cons, he]; simpa using h.closed hc
  pending ho := by rw [trace_append, trace_cons, he]; simpa using h.pending ho

theorem start (h : Sim data p s v) (hf : v.fault = false) (hc : v.isOpen = false) :
    Sim data p (s.perform (s.bodyBlock.start p)) (v.call b .start) := by
  obtain hd | ⟨d, hd⟩ := v.output.eq_none_or_eq_some
  · have hs : s.bodyBlock.start p = none := by simp [BlockExec.start, h.output, hd]
    have hv : v.call b .start = { v with fault := true } := by simp [View.call, hf, hd]
    rw [hs, hv]
    exact h.null
  · have hs : s.bodyBlock.start p =
        some ([.start d], { s.bodyBlock with isOpen := true, fromPos := some p }) := by
      simp [BlockExec.start, h.output, hd]
    have hv : v.call b .start = { v with isOpen := true, trace := v.trace ++ [.start d] } := by
      simp [View.call, hf, hd]
    rw [hs, hv]
    refine ⟨h.core, h.fault, rfl, h.output, by simp, fun _ => ?_⟩
    refine ⟨d, p, hd, rfl, Nat.le_refl p, ?_⟩
    simp [Parser.perform, trace_append, h.closed hc, Effect.obs]

theorem resume (h : Sim data p s v) (hf : v.fault = false) (hc : v.isOpen = false)
    (hsome : v.output.isSome) :
    Sim data p (s.perform (some ([], s.bodyBlock.resume p))) (v.call b .resume) := by
  have ht := h.closed hc
  obtain ⟨d, hd⟩ := Option.isSome_iff_exists.mp hsome
  have hv : v.call b .resume = { v with isOpen := true } := by simp [View.call, hf]
  rw [hv]
  refine ⟨h.core, h.fault, rfl, h.output, by simp, fun _ => ?_⟩
  refine ⟨d, p, hd, rfl, Nat.le_refl p, ?_⟩
  simp [Parser.perform, ht]

theorem shipped (h : Sim data p s v) (hb : data[p]? = some b) (ho : v.isOpen = true) :
    ∃ d bytes, v.output = some d ∧ s.bodyBlock.ship data (p + 1) = some (.receive d bytes) ∧
      (v.take b).trace = trace s.log ++ bytes.map (.byte d) := by
  obtain ⟨d, f, hd, hle, hship, ht⟩ := h.ship ho (p + 1)
  refine ⟨d, data.extract f (p + 1), hd, hship, ?_⟩
  rw [View.take, if_pos ho, hd, ht, extract_succ hle hb]
  simp

theorem pause (h : Sim data p s v) (hf : v.fault = false) (hb : data[p]? = some b)
    (ho : v.isOpen = true) :
    Sim data p (s.perform (s.bodyBlock.pause data (p + 1))) (v.call b .pause) := by
  obtain ⟨d, bytes, hd, hship, ht⟩ := h.shipped hb ho
  have hcore : (v.take b).core = v.core ∧ (v.take b).fault = v.fault ∧
      (v.take b).output = v.output := by simp [View.take, ho]
  simp only [BlockExec.pause, hship, Option.map_some, Parser.perform, View.call, hf,
    Bool.false_eq_true, if_false]
  refine ⟨h.core.trans hcore.1.symm, h.fault.trans hcore.2.1.symm, rfl,
    h.output.trans hcore.2.2.symm, fun _ => ?_, by simp⟩
  rw [trace_append, ht]
  simp [Effect.obs]

/-- `finish` after the shipping: `s` has sent all that `v` shows. -/
theorem finished (hcore : s.core = v.core) (hfault : s.fault = v.fault) (d : Dest) {es : List Effect}
    (ht : v.trace = trace (s.log ++ es)) :
    Sim data p (s.perform (some (es ++ [.finish d], .init))) (v.close d) := by
  refine ⟨hcore, hfault, rfl, rfl, fun _ => ?_, by simp [View.close]⟩
  simp only [View.close, Parser.perform, ht, trace_append, trace_cons, trace_nil, Effect.obs,
    List.append_nil, List.append_assoc]

/-- `finish` at `q`, where `w` is the view that counts in the bytes up to `q`. -/
theorem finishAt (h : Sim data p s v) (q : ℕ) {w : View σ} (hw : w.core = v.core ∧ w.fault = v.fault)
    (hclosed : v.isOpen = false → w.trace = v.trace)
    (hopen : v.isOpen = true → ∃ d bytes, v.output = some d ∧
      s.bodyBlock.ship data q = some (.receive d bytes) ∧ w.trace = trace s.log ++ bytes.map (.byte d))
    {d : Dest} (hd : v.output = some d) :
    Sim data p (s.perform (s.bodyBlock.finishAt data q)) (w.close d) := by
  have hfin : s.bodyBlock.finish = some ([.finish d], .init) := by
    simp [BlockExec.finish, h.output, hd]
  have hcore : s.core = w.core := h.core.trans hw.1.symm
  have hfault : s.fault = w.fault := h.fault.trans hw.2.symm
  cases ho : v.isOpen with
  | false =>
    have hblock : s.bodyBlock.finishAt data q = some ([] ++ [.finish d], .init) := by
      simp [BlockExec.finishAt, h.isOpen, ho, hfin]
    rw [hblock]
    refine finished hcore hfault d ?_
    rw [hclosed ho, h.closed ho, List.append_nil]
  | true =>
    obtain ⟨d', bytes, hd', hship, ht⟩ := hopen ho
    obtain rfl : d' = d := Option.some.inj (hd'.symm.trans hd)
    have hblock : s.bodyBlock.finishAt data q =
        some ([.receive d' bytes] ++ [.finish d'], .init) := by
      simp [BlockExec.finishAt, h.isOpen, ho, hship, hfin]
    rw [hblock]
    refine finished hcore hfault d' ?_
    rw [ht, trace_append]
    simp [Effect.obs]

theorem finish_null (h : Sim data p s v) (hd : v.output = none) (q : ℕ) :
    Sim data p (s.perform (s.bodyBlock.finishAt data q)) { v with fault := true } := by
  have hblock : s.bodyBlock.finishAt data q = none := by
    simp [BlockExec.finishAt, BlockExec.finish, BlockExec.ship, h.output, hd]
  rw [hblock]
  exact h.null

theorem finish (h : Sim data p s v) (hf : v.fault = false) :
    Sim data p (s.perform (s.bodyBlock.finishAt data p)) (v.call b .finish) := by
  obtain hd | ⟨d, hd⟩ := v.output.eq_none_or_eq_some
  · have hv : v.call b .finish = { v with fault := true } := by simp [View.call, hf, hd]
    rw [hv]
    exact h.finish_null hd p
  · have hv : v.call b .finish = v.close d := by simp [View.call, hf, hd]
    rw [hv]
    refine h.finishAt p ⟨rfl, rfl⟩ (fun _ => rfl) (fun ho => ?_) hd
    obtain ⟨d', f, hd', -, hship, ht⟩ := h.ship ho p
    exact ⟨d', _, hd', hship, ht⟩

theorem finishNext (h : Sim data p s v) (hf : v.fault = false) (hb : data[p]? = some b) :
    Sim data p (s.perform (s.bodyBlock.finishAt data (p + 1))) (v.call b .finishNext) := by
  obtain hd | ⟨d, hd⟩ := v.output.eq_none_or_eq_some
  · have hv : v.call b .finishNext = { v with fault := true } := by simp [View.call, hf, hd]
    rw [hv]
    exact h.finish_null hd (p + 1)
  · have hv : v.call b .finishNext = (v.take b).close d := by simp [View.call, hf, hd]
    rw [hv]
    have hw : (v.take b).core = v.core ∧ (v.take b).fault = v.fault := by
      unfold View.take
      split <;> exact ⟨rfl, rfl⟩
    refine h.finishAt (p + 1) hw (fun hc => ?_) (h.shipped hb) hd
    simp [View.take, hc]

theorem call {c : Call} (h : Sim data p s v) (hb : data[p]? = some b)
    (hfit : v.fault = false → c.Fits v.isOpen v.output) :
    Sim data p (s.call data p c) (v.call b c) := by
  cases hf : v.fault with
  | true =>
    have hs : s.fault = true := h.fault.trans hf
    have hv : v.call b c = v := by simp only [View.call, hf, if_true]
    rw [Parser.call, if_pos hs, hv]
    exact h
  | false =>
    have hs : ¬ s.fault = true := by rw [h.fault, hf]; exact Bool.false_ne_true
    have hfits := hfit hf
    rw [Parser.call, if_neg hs]
    cases c with
    | vpt c =>
      have hv : v.call b (.vpt c) = { v with trace := v.trace ++ (Effect.vpt c).obs } := by
        simp [View.call, hf, Effect.obs]
      rw [hv]
      exact h.emit hfits (.vpt c)
    | destination d =>
      have hv : v.call b (.destination d) = { v with output := some d } := by simp [View.call, hf]
      rw [hv]
      refine ⟨h.core, h.fault, h.isOpen, rfl, fun hc => ?_, fun ho => ?_⟩
      · simpa [Parser.perform, Call.exec] using h.closed hc
      · have hc : v.isOpen = false := hfits
        rw [hc] at ho
        cases ho
    | start => exact h.start hf hfits
    | pause => exact h.pause hf hb hfits
    | resume => exact h.resume hf hfits.1 hfits.2
    | finish => exact h.finish hf
    | finishNext => exact h.finishNext hf hb
    | preFinish =>
      have hv : v.call b .preFinish = v := by simp [View.call]
      rw [hv]
      exact h.silent rfl
    | responseComplete =>
      have hv : v.call b .responseComplete = v := by simp [View.call]
      rw [hv]
      exact h.silent rfl
    | fault =>
      have hv : v.call b .fault = { v with fault := true } := by simp [View.call, hf]
      rw [hv]
      exact h.null

theorem calls (hb : data[p]? = some b) (cs : List Call) :
    ∀ {s : Parser σ} {v : View σ}, Sim data p s v → Fitting b v cs →
      Sim data p (cs.foldl (Parser.call data p) s) (cs.foldl (View.call b) v) := by
  induction cs with
  | nil => exact fun h _ => h
  | cons c cs ih => exact fun h hfit => ih (h.call hb hfit.1) hfit.2

/-- The position moves past the byte, which goes to the body if one is open. -/
theorem advance (h : Sim data p s v) (hb : data[p]? = some b) : Sim data (p + 1) s (v.take b) := by
  cases ho : v.isOpen with
  | false =>
    have hv : v.take b = v := by simp [View.take, ho]
    rw [hv]
    exact h.of_closed ho data (p + 1)
  | true =>
    obtain ⟨d, f, hd, hfrom, hle, ht⟩ := h.pending ho
    have hv : v.take b = { v with trace := v.trace ++ [.byte d b] } := by simp [View.take, ho, hd]
    rw [hv]
    refine ⟨h.core, h.fault, h.isOpen, h.output, by simp [ho], fun _ => ?_⟩
    refine ⟨d, f, hd, hfrom, by omega, ?_⟩
    rw [ht, extract_succ hle hb]
    simp

end Sim

/-! ## The discipline of the calls -/

def View.mode (v : View σ) : Mode :=
  if v.fault then .fault else if v.isOpen then .opened else .closed v.output.isSome

/-- A body that is open has a destination. -/
def View.Sound (v : View σ) : Prop := v.isOpen = true → v.output.isSome = true ∧ v.fault = false

theorem View.call_mode {v : View σ} (hs : v.Sound) {c : Call} {m : Mode} (h : v.mode.call c = some m)
    (b : UInt8) : (v.fault = false → c.Fits v.isOpen v.output) ∧ (v.call b c).Sound ∧
      (v.call b c).mode = m := by
  obtain ⟨core, isOpen, output, tr, fault⟩ := v
  cases fault with
  | true =>
    obtain rfl : Mode.fault = m := Option.some.inj h
    exact ⟨by simp, by simpa [View.call] using hs, rfl⟩
  | false =>
    cases isOpen with
    | false =>
      cases output <;> cases c <;>
        simp_all [View.mode, Mode.call, View.call, View.Sound, Call.Fits, View.close, View.take]
    | true =>
      obtain ⟨d, rfl⟩ := Option.isSome_iff_exists.mp (hs rfl).1
      cases c <;>
        simp_all [View.mode, Mode.call, View.call, View.Sound, Call.Fits, View.close, View.take]

theorem View.calls_mode (b : UInt8) (cs : List Call) :
    ∀ {v : View σ} {m : Mode}, v.Sound → cs.foldlM Mode.call v.mode = some m →
      Fitting b v cs ∧ (cs.foldl (View.call b) v).Sound ∧ (cs.foldl (View.call b) v).mode = m := by
  induction cs with
  | nil => exact fun hs h => ⟨trivial, hs, Option.some.inj h⟩
  | cons c cs ih =>
    intro v m hs h
    rw [List.foldlM_cons, Option.bind_eq_bind, Option.bind_eq_some_iff] at h
    obtain ⟨m', hc, h⟩ := h
    obtain ⟨hfit, hs', rfl⟩ := View.call_mode hs hc b
    obtain ⟨hfits, hrest⟩ := ih hs' h
    exact ⟨⟨hfit, hfits⟩, hrest⟩

theorem View.take_mode {v : View σ} (hs : v.Sound) (b : UInt8) :
    (v.take b).Sound ∧ (v.take b).mode = v.mode ∧ (v.take b).core = v.core := by
  unfold View.take
  split
  · exact ⟨hs, rfl, rfl⟩
  · exact ⟨hs, rfl, rfl⟩

theorem View.calls_core (b : UInt8) (cs : List Call) :
    ∀ (v : View σ), (cs.foldl (View.call b) v).core = v.core := by
  induction cs with
  | nil => exact fun _ => rfl
  | cons c cs ih =>
    intro v
    have hc : (v.call b c).core = v.core := by
      cases c <;> simp only [View.call] <;> split_ifs <;> try rfl
      all_goals cases v.output <;> simp [View.close, View.take] <;> split_ifs <;> rfl
    rw [List.foldl_cons, ih, hc]

/-- The calls of an action made in a mode lead to a mode that the state after it allows. -/
def Keeps (Allows : σ → Mode → Prop) (m : Mode) (r : σ × List Call) : Prop :=
  ∃ m', r.2.foldlM Mode.call m = some m' ∧ Allows r.1 m'

theorem Keeps.after {Allows : σ → Mode → Prop} {m m' : Mode} {cs : List Call} {r : σ × List Call}
    (hcs : cs.foldlM Mode.call m = some m') (h : Keeps Allows m' r) : Keeps Allows m (after cs r) := by
  obtain ⟨m₂, hr, hallows⟩ := h
  refine ⟨m₂, ?_, hallows⟩
  rw [Parse.after, List.foldlM_append, hcs]
  exact hr

theorem Keeps.goto {Allows : σ → Mode → Prop} {m : Mode} {s : σ} (h : Allows s m) :
    Keeps Allows m (s, []) := ⟨m, rfl, h⟩

namespace Machine

/-- The view of a parser whose block is in a mode that its state allows. -/
structure Ready (M : Machine σ) (v : View σ) : Prop where
  sound : v.Sound
  allows : M.Allows v.core v.mode

/-- What the two HTTP parsers have in common: the calls of every byte fit. -/
structure Lawful (M : Machine σ) : Prop where
  closed_of_isError : ∀ s, M.isError s = true → ¬ M.Allows s .opened
  keeps : ∀ (s : σ) (b : UInt8) (m : Mode), M.isError s = false → m ≠ .fault → M.Allows s m →
    Keeps M.Allows m (M.step s b)

variable {M : Machine σ}

theorem viewStep_stopped {v : View σ} (h : (v.fault || M.isError v.core) = true) (b : UInt8) :
    M.viewStep v b = v := by
  rw [viewStep, if_pos h]

theorem Ready.closed (hM : M.Lawful) {v : View σ} (hr : M.Ready v)
    (h : (v.fault || M.isError v.core) = true) : v.isOpen = false := by
  cases ho : v.isOpen with
  | false => rfl
  | true =>
    have hf := (hr.sound ho).2
    have hmode : v.mode = .opened := by simp [View.mode, hf, ho]
    rw [hf, Bool.false_or] at h
    exact absurd (hmode ▸ hr.allows) (hM.closed_of_isError _ h)

theorem Lawful.byte (hM : M.Lawful) {v : View σ} (hr : M.Ready v)
    (hgo : (v.fault || M.isError v.core) = false) (b : UInt8) :
    Fitting b { v with core := (M.step v.core b).1 } (M.step v.core b).2 ∧
      M.Ready (M.viewStep v b) := by
  obtain ⟨hf, he⟩ := Bool.or_eq_false_iff.mp hgo
  have hmode : v.mode ≠ .fault := by
    simp only [View.mode, hf, Bool.false_eq_true, if_false]
    split <;> exact Mode.noConfusion
  obtain ⟨m, hm, hallows⟩ := hM.keeps v.core b v.mode he hmode hr.allows
  have hstart : (View.mk (M.step v.core b).1 v.isOpen v.output v.trace v.fault).Sound := hr.sound
  obtain ⟨hfits, hs, rfl⟩ := View.calls_mode b (M.step v.core b).2 hstart hm
  obtain ⟨hs', hmode', hcore'⟩ := View.take_mode hs b
  have hgo' : ¬ (v.fault || M.isError v.core) = true := by rw [hgo]; exact Bool.false_ne_true
  refine ⟨hfits, ?_⟩
  rw [viewStep, if_neg hgo']
  refine ⟨hs', ?_⟩
  simp only
  rw [hmode', hcore', View.calls_core]
  exact hallows

theorem sim_byte (hM : M.Lawful) {data : Text} {p : ℕ} {s : Parser σ} {v : View σ} {b : UInt8}
    (hb : data[p]? = some b) (h : Sim data p s v) (hr : M.Ready v)
    (hgo : (v.fault || M.isError v.core) = false) :
    Sim data (p + 1)
      ((M.step s.core b).2.foldl (Parser.call data p) { s with core := (M.step s.core b).1 })
      (M.viewStep v b) := by
  have hgo' : ¬ (v.fault || M.isError v.core) = true := by rw [hgo]; exact Bool.false_ne_true
  have hstart : Sim data p { s with core := (M.step s.core b).1 }
      { v with core := (M.step v.core b).1 } :=
    ⟨by rw [h.core], h.fault, h.isOpen, h.output, h.closed, h.pending⟩
  have hcalls := hstart.calls hb _ (hM.byte hr hgo b).1
  rw [viewStep, if_neg hgo', h.core]
  rw [h.core] at hcalls
  exact hcalls.advance hb

theorem exec_sim (hM : M.Lawful) (rest : Text) :
    ∀ (pre : Text) {s : Parser σ} {v : View σ}, Sim (pre ++ rest) pre.length s v → M.Ready v →
      (v.fault || M.isError v.core) = false →
      Sim (pre ++ rest) (pre ++ rest).length (M.exec (pre ++ rest) rest pre.length s)
        (rest.foldl M.viewStep v) ∧ M.Ready (rest.foldl M.viewStep v) := by
  induction rest with
  | nil =>
    intro pre s v h hr _
    simp only [List.append_nil] at h ⊢
    exact ⟨h, hr⟩
  | cons b rest ih =>
    intro pre s v h hr hgo
    have hget : (pre ++ b :: rest)[pre.length]? = some b := by simp
    have hsim := sim_byte hM hget h hr hgo
    have hready := (hM.byte hr hgo b).2
    simp only [exec, List.foldl_cons]
    generalize (M.step s.core b).2.foldl (Parser.call (pre ++ b :: rest) pre.length)
      { s with core := (M.step s.core b).1 } = t at hsim ⊢
    generalize M.viewStep v b = w at hsim hready ⊢
    rw [hsim.fault, hsim.core]
    cases hstop : w.fault || M.isError w.core with
    | true =>
      -- the parser has stopped: the rest of the buffer changes nothing, and nothing is pending
      rw [if_pos rfl, foldl_fixed (viewStep_stopped hstop) rest]
      exact ⟨hsim.of_closed (hready.closed hM hstop) _ _, hready⟩
    | false =>
      rw [if_neg Bool.false_ne_true]
      have happ : pre ++ b :: rest = (pre ++ [b]) ++ rest := by simp
      have hlen : pre.length + 1 = (pre ++ [b]).length := by simp
      rw [happ] at hsim ⊢
      rw [hlen] at hsim ⊢
      exact ih (pre ++ [b]) hsim hready hstop

theorem sim_start {s : Parser σ} (hr : M.Ready s.view) (data : Text) :
    Sim data 0 { s with bodyBlock := s.bodyBlock.preExec } s.view := by
  cases ho : s.bodyBlock.isOpen with
  | false =>
    have hpre : s.bodyBlock.preExec = s.bodyBlock := by simp [BlockExec.preExec, ho]
    rw [hpre]
    refine ⟨rfl, rfl, rfl, rfl, fun _ => rfl, fun h => ?_⟩
    have h' : s.bodyBlock.isOpen = true := h
    rw [ho] at h'
    cases h'
  | true =>
    have hpre : s.bodyBlock.preExec = { s.bodyBlock with fromPos := some 0 } := by
      simp [BlockExec.preExec, ho]
    obtain ⟨d, hd⟩ := Option.isSome_iff_exists.mp (hr.sound ho).1
    rw [hpre]
    refine ⟨rfl, rfl, rfl, rfl, fun _ => rfl, fun _ => ⟨d, 0, hd, rfl, Nat.le_refl 0, ?_⟩⟩
    simp [Parser.view]

theorem view_postExec {data : Text} {s : Parser σ} {v : View σ} (h : Sim data data.length s v) :
    (s.perform (s.bodyBlock.postExec data data.length)).view = v := by
  cases ho : v.isOpen with
  | false =>
    have hpost : s.bodyBlock.postExec data data.length = some ([], s.bodyBlock) := by
      simp [BlockExec.postExec, h.isOpen, ho]
    rw [hpost]
    simp only [Parser.perform, Parser.view, List.append_nil, h.core, h.isOpen, h.output, h.fault,
      ← h.closed ho]
  | true =>
    obtain ⟨d, f, hd, -, hship, ht⟩ := h.ship ho data.length
    have hpost : s.bodyBlock.postExec data data.length =
        some ([.receive d (data.extract f data.length)], { s.bodyBlock with fromPos := none }) := by
      simp [BlockExec.postExec, h.isOpen, ho, hship]
    have htrace : trace (s.log ++ [.receive d (data.extract f data.length)]) = v.trace := by
      rw [trace_append, ht]
      simp [Effect.obs]
    rw [hpost]
    simp only [Parser.perform, Parser.view, htrace, h.core, h.isOpen, h.output, h.fault]

theorem view_stopped {data : Text} {p : ℕ} {s : Parser σ} {v : View σ} (h : Sim data p s v)
    (hc : v.isOpen = false) : s.view = v := by
  simp only [Parser.view, h.core, h.isOpen, h.output, h.fault, ← h.closed hc]

theorem receive_view (hM : M.Lawful) {s : Parser σ} (hr : M.Ready s.view) (data : Text) :
    (M.receive s data).view = data.foldl M.viewStep s.view ∧ M.Ready (M.receive s data).view := by
  cases hgo : s.fault || M.isError s.core with
  | true =>
    have hview : (s.view.fault || M.isError s.view.core) = true := hgo
    rw [receive, if_pos hgo, foldl_fixed (viewStep_stopped hview) data]
    exact ⟨rfl, hr⟩
  | false =>
    have hsim := exec_sim hM data [] (sim_start hr data) hr hgo
    simp only [List.nil_append, List.length_nil] at hsim
    have hgo' : ¬ (s.fault || M.isError s.core) = true := by rw [hgo]; exact Bool.false_ne_true
    rw [receive, if_neg hgo']
    generalize M.exec data data 0 { s with bodyBlock := s.bodyBlock.preExec } = t at hsim ⊢
    generalize data.foldl M.viewStep s.view = w at hsim ⊢
    obtain ⟨h, hready⟩ := hsim
    have hview : (if t.fault || M.isError t.core then t
        else t.perform (t.bodyBlock.postExec data data.length)).view = w := by
      split
      · rename_i hstop
        rw [h.fault, h.core] at hstop
        exact view_stopped h (hready.closed hM hstop)
      · exact view_postExec h
    refine ⟨hview, ?_⟩
    simp only
    rw [hview]
    exact hready

theorem byteWise (hM : M.Lawful) :
    ByteWise (fun s : Parser σ => M.Ready s.view) M.receive Parser.view M.viewStep where
  keep _ d hr := (receive_view hM hr d).2
  simulate _ d hr := (receive_view hM hr d).1

end Machine

/-! ## What the view tells -/

theorem vptCalls_eq_trace (log : List Effect) :
    vptCalls log = (trace log).filterMap fun
      | .vpt c => some c
      | _ => none := by
  induction log with
  | nil => rfl
  | cons e log ih =>
    rw [trace_cons, List.filterMap_append, ← ih]
    cases e <;> simp [vptCalls, Effect.obs, List.filterMap_map]

theorem SameRun.of_view {s t : Parser σ} (h : s.view = t.view) : SameRun s t where
  vptCalls := by
    have htrace : trace s.log = trace t.log := congrArg View.trace h
    rw [vptCalls_eq_trace, vptCalls_eq_trace, htrace]
  deliveries := by
    have htrace : trace s.log = trace t.log := congrArg View.trace h
    rw [Parse.deliveries, Parse.deliveries, htrace]
  core := congrArg View.core h
  isOpen := congrArg View.isOpen h
  output := congrArg View.output h
  fault := congrArg View.fault h

/-- Any two ways of cutting a stream, from any state that a started parser comes to. -/
theorem Machine.sameRun {M : Machine σ} (hM : M.Lawful) {s : Parser σ} (hr : M.Ready s.view)
    (before : List Text) {ds es : List Text} (hcut : ds.flatten = es.flatten) :
    SameRun (ds.foldl M.receive (before.foldl M.receive s))
      (es.foldl M.receive (before.foldl M.receive s)) := by
  have hready := (Machine.byteWise hM).inv before hr
  exact SameRun.of_view ((Machine.byteWise hM).cuts hready hcut)

end Netp.Parse
