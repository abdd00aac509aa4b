import Netp.Lib.CString
import Netp.Lib.Fuel
import Netp.Parse.Message

/-! # The decompressors (`parse/gzip.cc`, `parse/brotli.cc`)

`Gzip::decompressBuf` and `Brotli::receive` call their library in a loop, each time with an empty output buffer of
`destLen` bytes, and hand on what a call has put into it. The libraries are parameters: what is known of a call is
what their documentation says of it (`CallOk`), and what it says of each result.
-/

namespace Netp.Parse
open Netp.Lib
set_option autoImplicit false

def destLen : ℕ := 8192

/-- What a call of a library comes back with. -/
structure LibCall (σ ρ : Type) where
  state : σ
  consumed : ℕ
  output : Text
  result : ρ

/-! ## The loops -/

section Loops
variable {σ : Type}

namespace Gzip

inductive Result
  | ok | bufError | streamEnd | error
  deriving DecidableEq

/-- `decompressBuf`, in at most this many rounds: the state of the library, and what is passed to
`output->receive`. -/
def decompressBuf (inflate : σ → Text → ℕ → LibCall σ Result) : ℕ → σ → Text → Option (σ × List Text)
  | 0, _, _ => none
  | n + 1, s, buf =>
      let call := inflate s buf destLen
      let availOut := destLen - call.output.length
      let sent := if availOut < destLen then [call.output] else []
      match call.result with
      | .ok =>
          if availOut = 0 then
            (decompressBuf inflate n call.state (buf.drop call.consumed)).map fun r => (r.1, sent ++ r.2)
          else some (call.state, sent)
      | .bufError => some (call.state, [])
      | .streamEnd => some (call.state, sent)
      | .error => some (call.state, [])

end Gzip

namespace Brotli

/-- `BrotliDecoderResult`. -/
inductive Result
  | error | success | needsMoreInput | needsMoreOutput
  deriving DecidableEq

def receive (decompress : σ → Text → ℕ → LibCall σ Result) : ℕ → σ → Text → Option (σ × List Text)
  | 0, _, _ => none
  | n + 1, s, data =>
      let call := decompress s data destLen
      let availOut := destLen - call.output.length
      let sent := if availOut < destLen then [call.output] else []
      match call.result with
      | .error => some (call.state, [])
      | .success => some (call.state, sent)
      | .needsMoreInput => some (call.state, sent)
      | .needsMoreOutput =>
          (receive decompress n call.state (data.drop call.consumed)).map fun r => (r.1, sent ++ r.2)

end Brotli

/-- One call of `receive` for each piece. -/
def receiveAll (receive : ℕ → σ → Text → Option (σ × List Text)) (n : ℕ) :
    σ → List Text → Option (σ × List Text)
  | s, [] => some (s, [])
  | s, piece :: pieces => (receive n s piece).bind fun r =>
      (receiveAll receive n r.1 pieces).map fun q => (q.1, r.2 ++ q.2)

end Loops

/-! ## What the libraries promise -/

section Contracts
variable {σ ρ : Type}

/-- A call with the `input` that comes next in the stream `z`, whose data is `d`. Before it `k` bytes of the stream
were consumed and `m` bytes of data were produced; `At` says so of a state. -/
structure CallOk (z d : Text) (At : σ → ℕ → ℕ → Prop) (k m : ℕ) (input : Text) (call : LibCall σ ρ) : Prop where
  state : At call.state (k + call.consumed) (m + call.output.length)
  consumed : call.consumed ≤ input.length
  room : call.output.length ≤ destLen
  output : call.output <+: d.drop m
  /-- It goes on until the input is used up or the buffer is full. -/
  used : call.output.length < destLen → call.consumed = input.length
  /-- If then the whole stream is consumed, all its data is produced. -/
  produced : call.output.length < destLen → k + call.consumed = z.length → m + call.output.length = d.length

/-- The stream has ended. -/
def Ended (z d : Text) (k m : ℕ) (call : LibCall σ ρ) : Prop :=
  k + call.consumed = z.length ∧ m + call.output.length = d.length

/-- A library, started on a stream that is valid, and not empty. -/
structure Decodes (lib : σ → Text → ℕ → LibCall σ ρ) (z d : Text) (start : σ) (At : σ → ℕ → ℕ → Prop)
    (Reports : ℕ → ℕ → Text → LibCall σ ρ → Prop) : Prop where
  nonempty : z ≠ []
  start : At start 0 0
  call : ∀ s k m input, At s k m → input <+: z.drop k →
    CallOk z d At k m input (lib s input destLen) ∧ Reports k m input (lib s input destLen)

/-- The results of `inflate( .., Z_NO_FLUSH )`. -/
def Gzip.Reports (z d : Text) (k m : ℕ) (_ : Text) (call : LibCall σ Gzip.Result) : Prop :=
  match call.result with
  | .ok => True
  | .bufError => call.consumed = 0 ∧ call.output = []
  | .streamEnd => Ended z d k m call
  | .error => False

/-- The results of `BrotliDecoderDecompressStream`. -/
def Brotli.Reports (z d : Text) (k m : ℕ) (input : Text) (call : LibCall σ Brotli.Result) : Prop :=
  match call.result with
  | .error => False
  | .success => Ended z d k m call
  | .needsMoreInput => call.consumed = input.length ∧ k + call.consumed ≠ z.length
  | .needsMoreOutput => call.output.length = destLen

end Contracts

/-! ## One call of `receive` -/

section Receive
variable {σ ρ : Type} {z d : Text} {At : σ → ℕ → ℕ → Prop} {k m : ℕ} {input : Text} {s start : σ}

/-- What a call of `receive` is to leave behind. -/
structure Passed (z d : Text) (At : σ → ℕ → ℕ → Prop) (k m : ℕ) (input : Text) (r : σ × List Text) :
    Prop where
  state : At r.1 (k + input.length) (m + r.2.flatten.length)
  output : r.2.flatten <+: d.drop m
  produced : k + input.length = z.length → m + r.2.flatten.length = d.length

theorem append_prefix_drop {out rest : Text} (h : out <+: d.drop m) (hrest : rest <+: d.drop (m + out.length)) :
    out ++ rest <+: d.drop m := by
  obtain ⟨t, ht⟩ := h
  have hdrop : d.drop (m + out.length) = t := by
    rw [← List.drop_drop, ← ht, List.drop_left]
  rw [hdrop] at hrest
  rw [← ht]
  exact List.prefix_append_right_inj out |>.2 hrest

theorem flatten_sent {call : LibCall σ ρ} (h : CallOk z d At k m input call) :
    (if destLen - call.output.length < destLen then [call.output] else []).flatten = call.output := by
  have hroom := h.room
  split
  · exact List.flatten_singleton
  · next hempty =>
    have hlen : call.output.length = 0 := by
      unfold destLen at *
      omega
    rw [List.flatten_nil, List.eq_nil_of_length_eq_zero hlen]

theorem CallOk.passed {call : LibCall σ ρ} (h : CallOk z d At k m input call) (hused : call.consumed = input.length)
    (hproduced : k + call.consumed = z.length → m + call.output.length = d.length) {sent : List Text}
    (hsent : sent.flatten = call.output) : Passed z d At k m input (call.state, sent) := by
  refine ⟨?_, ?_, ?_⟩
  · rw [hsent, ← hused]
    exact h.state
  · rw [hsent]
    exact h.output
  · rw [hsent, ← hused]
    exact hproduced

theorem CallOk.then {call : LibCall σ ρ} (h : CallOk z d At k m input call) {sent : List Text}
    (hsent : sent.flatten = call.output) {r : σ × List Text}
    (hr : Passed z d At (k + call.consumed) (m + call.output.length) (input.drop call.consumed) r) :
    Passed z d At k m input (r.1, sent ++ r.2) := by
  have hconsumed := h.consumed
  have hk : k + call.consumed + (input.drop call.consumed).length = k + input.length := by
    rw [List.length_drop]
    omega
  have hm : m + (sent ++ r.2).flatten.length = m + call.output.length + r.2.flatten.length := by
    rw [List.flatten_append, hsent, List.length_append]
    omega
  refine ⟨?_, ?_, ?_⟩
  · rw [hm, ← hk]
    exact hr.state
  · rw [List.flatten_append, hsent]
    exact append_prefix_drop h.output hr.output
  · rw [hm, ← hk]
    exact hr.produced

theorem drop_prefix_drop {n : ℕ} (h : input <+: z.drop k) : input.drop n <+: z.drop (k + n) := by
  rw [← List.drop_drop]
  exact h.drop n

theorem CallOk.nearer {call : LibCall σ ρ} (h : CallOk z d At k m input call) (hfull : call.output.length = destLen) :
    d.length - (m + call.output.length) < d.length - m := by
  have hlen := h.output.length_le
  rw [List.length_drop] at hlen
  unfold destLen at hfull
  omega

theorem Ended.used {call : LibCall σ ρ} (h : Ended z d k m call) (hok : CallOk z d At k m input call)
    (hinput : input <+: z.drop k) : call.consumed = input.length := by
  have hlen := hinput.length_le
  have hconsumed := hok.consumed
  have hend := h.1
  rw [List.length_drop] at hlen
  omega

/-- The loop of `decompressBuf` ends, and what it passes on is the data. -/
theorem Gzip.decompressBuf_passes {inflate : σ → Text → ℕ → LibCall σ Gzip.Result}
    (h : Decodes inflate z d start At (Gzip.Reports z d)) (hat : At s k m) (hinput : input <+: z.drop k) :
    ∃ r, Yields (fun n => Gzip.decompressBuf inflate n s input) r ∧ Passed z d At k m input r := by
  induction hleft : d.length - m using Nat.strong_induction_on generalizing s k m input with
  | _ left ih =>
    obtain ⟨hok, hreport⟩ := h.call s k m input hat hinput
    have hsent := flatten_sent hok
    unfold Gzip.Reports at hreport
    cases hresult : (inflate s input destLen).result with
    | ok =>
      by_cases hfull : destLen - (inflate s input destLen).output.length = 0
      · have hroom := hok.room
        have hlen : (inflate s input destLen).output.length = destLen := by omega
        obtain ⟨r, ⟨n, hn⟩, hr⟩ := ih _ (hleft ▸ hok.nearer hlen) hok.state (drop_prefix_drop hinput) rfl
        refine ⟨_, ⟨n + 1, ?_⟩, hok.then hsent hr⟩
        simp only [Gzip.decompressBuf, hresult, if_pos hfull, hn, Option.map_some]
      · have hlt : (inflate s input destLen).output.length < destLen := by omega
        refine ⟨_, ⟨1, ?_⟩, hok.passed (hok.used hlt) (hok.produced hlt) hsent⟩
        simp only [Gzip.decompressBuf, hresult, if_neg hfull]
    | bufError =>
      rw [hresult] at hreport
      have hlt : (inflate s input destLen).output.length < destLen := by
        rw [hreport.2]
        decide
      have hnone : ([] : List Text).flatten = (inflate s input destLen).output := hreport.2.symm
      refine ⟨_, ⟨1, ?_⟩, hok.passed (hok.used hlt) (hok.produced hlt) hnone⟩
      simp only [Gzip.decompressBuf, hresult]
    | streamEnd =>
      rw [hresult] at hreport
      refine ⟨_, ⟨1, ?_⟩, hok.passed (hreport.used hok hinput) (fun _ => hreport.2) hsent⟩
      simp only [Gzip.decompressBuf, hresult]
    | error =>
      rw [hresult] at hreport
      exact hreport.elim

theorem Brotli.receive_passes {decompress : σ → Text → ℕ → LibCall σ Brotli.Result}
    (h : Decodes decompress z d start At (Brotli.Reports z d)) (hat : At s k m) (hinput : input <+: z.drop k) :
    ∃ r, Yields (fun n => Brotli.receive decompress n s input) r ∧ Passed z d At k m input r := by
  induction hleft : d.length - m using Nat.strong_induction_on generalizing s k m input with
  | _ left ih =>
    obtain ⟨hok, hreport⟩ := h.call s k m input hat hinput
    have hsent := flatten_sent hok
    unfold Brotli.Reports at hreport
    cases hresult : (decompress s input destLen).result with
    | error =>
      rw [hresult] at hreport
      exact hreport.elim
    | success =>
      rw [hresult] at hreport
      refine ⟨_, ⟨1, ?_⟩, hok.passed (hreport.used hok hinput) (fun _ => hreport.2) hsent⟩
      simp only [Brotli.receive, hresult]
    | needsMoreInput =>
      rw [hresult] at hreport
      refine ⟨_, ⟨1, ?_⟩, hok.passed hreport.1 (fun hend => absurd hend hreport.2) hsent⟩
      simp only [Brotli.receive, hresult]
    | needsMoreOutput =>
      rw [hresult] at hreport
      obtain ⟨r, ⟨n, hn⟩, hr⟩ := ih _ (hleft ▸ hok.nearer hreport) hok.state (drop_prefix_drop hinput) rfl
      refine ⟨_, ⟨n + 1, ?_⟩, hok.then hsent hr⟩
      simp only [Brotli.receive, hresult, hn, Option.map_some]

end Receive

/-! ## All calls -/

section Pieces
variable {σ : Type}

theorem grows_decompressBuf (inflate : σ → Text → ℕ → LibCall σ Gzip.Result) (s : σ) (buf : Text) :
    Grows fun n => Gzip.decompressBuf inflate n s buf := by
  intro n
  induction n generalizing s buf with
  | zero =>
    intro r h
    cases h
  | succ n ih =>
    unfold Gzip.decompressBuf
    simp only
    split
    · split
      · exact (ih _ _).map _
      · exact .refl _
    · exact .refl _
    · exact .refl _
    · exact .refl _

theorem grows_brotliReceive (decompress : σ → Text → ℕ → LibCall σ Brotli.Result) (s : σ) (data : Text) :
    Grows fun n => Brotli.receive decompress n s data := by
  intro n
  induction n generalizing s data with
  | zero =>
    intro r h
    cases h
  | succ n ih =>
    unfold Brotli.receive
    simp only
    split
    · exact .refl _
    · exact .refl _
    · exact .refl _
    · exact (ih _ _).map _

theorem grows_receiveAll {receive : ℕ → σ → Text → Option (σ × List Text)}
    (h : ∀ s data, Grows fun n => receive n s data) (s : σ) (pieces : List Text) :
    Grows fun n => receiveAll receive n s pieces := by
  induction pieces generalizing s with
  | nil => exact .const _
  | cons piece pieces ih => exact (h s piece).bind fun r => (ih r.1).map _

theorem receiveAll_passes {z d : Text} {At : σ → ℕ → ℕ → Prop} {receive : ℕ → σ → Text → Option (σ × List Text)}
    (hgrows : ∀ s data, Grows fun n => receive n s data)
    (hpasses : ∀ s k m input, At s k m → input <+: z.drop k →
      ∃ r, Yields (fun n => receive n s input) r ∧ Passed z d At k m input r)
    {s : σ} {k m : ℕ} {pieces : List Text} (hat : At s k m) (hz : pieces.flatten = z.drop k) (hm : m ≤ d.length)
    (hk : k < z.length ∨ m = d.length) :
    ∃ r, Yields (fun n => receiveAll receive n s pieces) r ∧ r.2.flatten = d.drop m := by
  induction pieces generalizing s k m with
  | nil =>
    have hlen := congrArg List.length hz
    rw [List.flatten_nil, List.length_nil, List.length_drop] at hlen
    have hend : m = d.length := hk.resolve_left (by omega)
    exact ⟨(s, []), ⟨0, rfl⟩, by rw [hend, List.drop_length]; rfl⟩
  | cons piece pieces ih =>
    rw [List.flatten_cons] at hz
    have hprefix : piece <+: z.drop k := ⟨_, hz⟩
    obtain ⟨r, hr, hpassed⟩ := hpasses s k m piece hat hprefix
    have hrest : pieces.flatten = z.drop (k + piece.length) := by
      rw [← List.drop_drop, ← hz, List.drop_left]
    have hlen := hpassed.output.length_le
    have hpiece := hprefix.length_le
    rw [List.length_drop] at hlen hpiece
    have hk' : k + piece.length < z.length ∨ m + r.2.flatten.length = d.length := by
      rcases hk with hk | hk
      · by_cases hend : k + piece.length = z.length
        · exact .inr (hpassed.produced hend)
        · exact .inl (by omega)
      · exact .inr (by omega)
    obtain ⟨q, hq, hdata⟩ := ih hpassed.state hrest (by omega) hk'
    refine ⟨(q.1, r.2 ++ q.2), ?_, ?_⟩
    · refine (yields_bind (hgrows s piece) fun r => (grows_receiveAll hgrows r.1 pieces).map _).2 ⟨r, hr, ?_⟩
      exact yields_map.2 ⟨q, hq, rfl⟩
    · obtain ⟨t, ht⟩ := hpassed.output
      rw [List.flatten_append, hdata, ← List.drop_drop, ← ht, List.drop_left]

/-- Whatever the pieces in which a stream comes, the calls return and what they pass on is its data. -/
theorem decompressors_deliver :
    (∀ (σ : Type) (inflate : σ → Text → ℕ → LibCall σ Gzip.Result) (z d : Text) (start : σ)
      (At : σ → ℕ → ℕ → Prop), Decodes inflate z d start At (Gzip.Reports z d) →
      ∀ pieces : List Text, pieces.flatten = z →
        ∃ r, Yields (fun n => receiveAll (Gzip.decompressBuf inflate) n start pieces) r ∧ r.2.flatten = d) ∧
    (∀ (σ : Type) (decompress : σ → Text → ℕ → LibCall σ Brotli.Result) (z d : Text) (start : σ)
      (At : σ → ℕ → ℕ → Prop), Decodes decompress z d start At (Brotli.Reports z d) →
      ∀ pieces : List Text, pieces.flatten = z →
        ∃ r, Yields (fun n => receiveAll (Brotli.receive decompress) n start pieces) r ∧ r.2.flatten = d) := by
  constructor
  · intro σ inflate z d start At h pieces hz
    refine receiveAll_passes (grows_decompressBuf inflate)
      (fun s k m input hat hinput => Gzip.decompressBuf_passes h hat hinput) h.start hz (Nat.zero_le _) (.inl ?_)
    exact List.length_pos_iff.2 h.nonempty
  · intro σ decompress z d start At h pieces hz
    refine receiveAll_passes (grows_brotliReceive decompress)
      (fun s k m input hat hinput => Brotli.receive_passes h hat hinput) h.start hz (Nat.zero_le _) (.inl ?_)
    exact List.length_pos_iff.2 h.nonempty

end Pieces

/-! ### Streams that hold their data as it is -/

/-- A library on a stream whose data stands in it behind `head` bytes; the state is how much was consumed and
produced. -/
def stored {ρ : Type} (head : ℕ) (z d : Text) (last more nothing : ρ) (s : ℕ × ℕ) (input : Text) (_ : ℕ) :
    LibCall (ℕ × ℕ) ρ :=
  let k := s.1 + input.length
  let output := (d.take (k - head)).drop s.2
  ⟨(k, s.2 + output.length), input.length, output,
    if k = z.length then last else if input = [] then nothing else more⟩

def StoredAt (head : ℕ) (z d : Text) (s : ℕ × ℕ) (k m : ℕ) : Prop :=
  s = (k, m) ∧ k ≤ z.length ∧ m = min (k - head) d.length

theorem stored_callOk {ρ : Type} {head k m : ℕ} {z d input : Text} {last more nothing : ρ} {s : ℕ × ℕ}
    (hhead : head + d.length ≤ z.length) (hd : d.length < destLen) (hat : StoredAt head z d s k m)
    (hinput : input <+: z.drop k) :
    CallOk z d (StoredAt head z d) k m input (stored head z d last more nothing s input destLen) := by
  obtain ⟨rfl, hk, hm⟩ := hat
  have hlen := hinput.length_le
  rw [List.length_drop] at hlen
  have hout : ((d.take (k + input.length - head)).drop m).length = min (k + input.length - head) d.length - m := by
    rw [List.length_drop, List.length_take]
  refine ⟨⟨rfl, ?_, ?_⟩, le_refl _, ?_, ?_, fun _ => rfl, ?_⟩
  · simp only [stored]
    omega
  · simp only [stored, hout]
    omega
  · simp only [stored, hout]
    omega
  · exact (List.take_prefix _ _).drop m
  · simp only [stored, hout]
    omega

theorem stored_ended {ρ : Type} {head k m : ℕ} {z d input : Text} {last more nothing : ρ} {s : ℕ × ℕ}
    (hhead : head + d.length ≤ z.length) (hat : StoredAt head z d s k m) (hend : k + input.length = z.length) :
    Ended z d k m (stored head z d last more nothing s input destLen) := by
  obtain ⟨rfl, -, hm⟩ := hat
  refine ⟨hend, ?_⟩
  simp only [stored, List.length_drop, List.length_take]
  omega

/-- The string `hi`, in a gzip stream with one stored block. -/
def storedGzip : Text :=
  [31, 139, 8, 0, 0, 0, 0, 0, 4, 3, 1, 2, 0, 253, 255, 104, 105, 172, 42, 147, 216, 2, 0, 0, 0]

/-- The same in a Brotli stream with one uncompressed meta-block. -/
def storedBrotli : Text := [16, 0, 16, 104, 105, 3]

theorem storedGzip_decodes : Decodes (stored 15 storedGzip [104, 105] .streamEnd .ok .bufError) storedGzip [104, 105]
    (0, 0) (StoredAt 15 storedGzip [104, 105]) (Gzip.Reports storedGzip [104, 105]) := by
  have hhead : 15 + [104, 105].length ≤ storedGzip.length := by decide
  refine ⟨by decide, ⟨rfl, by decide, by decide⟩, ?_⟩
  intro s k m input hat hinput
  refine ⟨stored_callOk hhead (by decide) hat hinput, ?_⟩
  by_cases hend : k + input.length = storedGzip.length
  · have hresult : Ended storedGzip [104, 105] k m (stored 15 storedGzip [104, 105] Gzip.Result.streamEnd .ok
        .bufError s input destLen) := stored_ended hhead hat hend
    obtain ⟨rfl, -, -⟩ := hat
    simpa [Gzip.Reports, stored, hend] using hresult
  · obtain ⟨rfl, -, hm⟩ := hat
    by_cases hnil : input = []
    · subst hnil
      have hk : k ≠ storedGzip.length := hend
      have hout : ([104, 105].take (k - 15)).drop m = ([] : Text) := by
        rw [List.drop_eq_nil_iff, List.length_take, hm]
      simp [Gzip.Reports, stored, hk, hout]
    · simp [Gzip.Reports, stored, hend, hnil]

theorem storedBrotli_decodes : Decodes (stored 3 storedBrotli [104, 105] .success .needsMoreInput .needsMoreInput)
    storedBrotli [104, 105] (0, 0) (StoredAt 3 storedBrotli [104, 105]) (Brotli.Reports storedBrotli [104, 105]) := by
  have hhead : 3 + [104, 105].length ≤ storedBrotli.length := by decide
  refine ⟨by decide, ⟨rfl, by decide, by decide⟩, ?_⟩
  intro s k m input hat hinput
  refine ⟨stored_callOk hhead (by decide) hat hinput, ?_⟩
  by_cases hend : k + input.length = storedBrotli.length
  · have hresult : Ended storedBrotli [104, 105] k m (stored 3 storedBrotli [104, 105] Brotli.Result.success
        .needsMoreInput .needsMoreInput s input destLen) := stored_ended hhead hat hend
    obtain ⟨rfl, -, -⟩ := hat
    simpa [Brotli.Reports, stored, hend] using hresult
  · obtain ⟨rfl, -, -⟩ := hat
    simp [Brotli.Reports, stored, hend]

theorem decompressors_deliver_hi :
    (∃ r, Yields (fun n => receiveAll (Gzip.decompressBuf (stored 15 storedGzip [104, 105] .streamEnd .ok .bufError)) n
      (0, 0) [storedGzip.take 16, storedGzip.drop 16]) r ∧ r.2.flatten = bytes "hi") ∧
    (∃ r, Yields (fun n => receiveAll (Brotli.receive (stored 3 storedBrotli [104, 105] .success .needsMoreInput
      .needsMoreInput)) n (0, 0) [storedBrotli.take 4, storedBrotli.drop 4]) r ∧ r.2.flatten = bytes "hi") :=
  ⟨decompressors_deliver.1 _ _ _ _ _ _ storedGzip_decodes _ (by decide),
    decompressors_deliver.2 _ _ _ _ _ _ storedBrotli_decodes _ (by decide)⟩

end Netp.Parse
