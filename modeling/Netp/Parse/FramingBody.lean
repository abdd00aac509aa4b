import Netp.Parse.Framing

/-! # The response parser finds the bodies

The body of a well-formed response is delivered between one `start` and one `finish`, if its length is
given or if it comes in chunks. A body that ends with the connection is finished after one byte, and a
chunked body without chunks has no destination to finish.
-/

namespace Netp.Parse
open Netp.Lib
set_option autoImplicit false

/-! ## Bodies -/

/-- A parser with a body open. -/
structure Flowing (v : View HttpResponse) (s : HttpResponse) (d : Dest) : Prop where
  core : v.core = s
  fault : v.fault = false
  isOpen : v.isOpen = true
  output : v.output = some d

/-- The calls of the first byte of a body set the destination and open the block. -/
theorem start_view {v : View HttpResponse} {s : HttpResponse} {output : Option Dest} (b : UInt8)
    (hv : Resting v s output) (d : Dest) :
    ∃ w, [Call.destination d, .start].foldl (View.call b) v = w ∧ Flowing w s d ∧
      w.deliveries = v.deliveries ++ [.start d] := by
  refine ⟨_, rfl, ⟨?_, ?_, ?_, ?_⟩, ?_⟩
  · simp [View.call, hv.fault, hv.core]
  · simp [View.call, hv.fault]
  · simp [View.call, hv.fault]
  · simp [View.call, hv.fault]
  · simp [View.call, hv.fault, View.deliveries, Obs.isDelivery]

theorem Flowing.take {v : View HttpResponse} {s : HttpResponse} {d : Dest} (hv : Flowing v s d)
    (b : UInt8) : Flowing (v.take b) s d ∧ (v.take b).deliveries = v.deliveries ++ [.byte d b] := by
  have htake : v.take b = { v with trace := v.trace ++ [.byte d b] } := by
    simp [View.take, hv.isOpen, hv.output]
  rw [htake]
  refine ⟨⟨hv.core, hv.fault, hv.isOpen, hv.output⟩, ?_⟩
  simp [View.deliveries, Obs.isDelivery]

/-- `bodyBlockFinish` and the end of the response, at the last byte of an open body. -/
theorem Flowing.finish {v : View HttpResponse} {s : HttpResponse} {d : Dest} (hv : Flowing v s d)
    (t : HttpResponse) (b : UInt8) :
    let w := ((t.bodyBlockFinish ++ [Call.vpt (.pop .httpResponse)]).foldl (View.call b) v).take b
    Resting w s none ∧ w.deliveries = v.deliveries ++ [.byte d b, .finish d] := by
  have hw : ((t.bodyBlockFinish ++ [Call.vpt (.pop .httpResponse)]).foldl (View.call b) v).take b =
      { v with
        isOpen := false
        output := none
        trace := v.trace ++ [.byte d b, .finish d, .vpt (.pop .httpResponse)] } := by
    unfold HttpResponse.bodyBlockFinish
    split_ifs <;> simp [View.call, View.take, View.close, hv.fault, hv.isOpen, hv.output]
  simp only [hw]
  refine ⟨⟨hv.core, hv.fault, rfl, rfl⟩, ?_⟩
  rw [View.deliveries, View.deliveries, List.filter_append]
  rfl

/-- `bodyBlockFinish` and the end of the response, between chunks. -/
theorem Resting.finish {v : View HttpResponse} {s : HttpResponse} {d : Dest}
    (hv : Resting v s (some d)) (t : HttpResponse) (b : UInt8) :
    let w := ((t.bodyBlockFinish ++ [Call.vpt (.pop .httpResponse)]).foldl (View.call b) v).take b
    Resting w s none ∧ w.deliveries = v.deliveries ++ [.finish d] := by
  have hw : ((t.bodyBlockFinish ++ [Call.vpt (.pop .httpResponse)]).foldl (View.call b) v).take b =
      { v with
        output := none
        trace := v.trace ++ [.finish d, .vpt (.pop .httpResponse)] } := by
    unfold HttpResponse.bodyBlockFinish
    split_ifs <;> simp [View.call, View.take, View.close, hv.fault, hv.isOpen, hv.output]
  simp only [hw]
  refine ⟨⟨hv.core, hv.fault, hv.isOpen, rfl⟩, ?_⟩
  rw [View.deliveries, View.deliveries, List.filter_append]
  rfl

/-! ### A body with its length -/

theorem consume_more {s : HttpResponse} {n : ℕ} (hs : s.contentLength = n + 1) (hn : 0 < n)
    (hlt : n < 2 ^ 31) (inside : RspState) :
    ∃ t, s.consume inside = (t, []) ∧ t.cs = inside ∧ t.contentLength = n := by
  have hval : toInt (s.contentLength - 1) = n := by
    rw [hs, toInt_of_lt (by omega) (by omega)]
    omega
  refine ⟨{ s with contentLength := n, cs := inside }, ?_, rfl, rfl⟩
  simp only [HttpResponse.consume, hval]
  rw [if_neg (by omega)]
  rfl

theorem consume_last {s : HttpResponse} (hs : s.contentLength = 1) (inside : RspState) :
    ∃ t, s.consume inside =
        (t, s.bodyBlockFinish ++ [.vpt (.pop .httpResponse)]) ∧ t.cs = .main := by
  have hval : toInt (s.contentLength - 1) = 0 := by
    rw [hs, toInt_of_lt (by omega) (by omega)]
    rfl
  refine ⟨{ s with contentLength := 0, cs := .main }, ?_, rfl⟩
  simp only [HttpResponse.consume, hval]
  rw [if_pos (Int.le_refl 0)]
  rfl

/-- From a byte of the body to its end. The calls of the transition are made on `w`, where the block is
open. -/
theorem consume_rest (x : Text) :
    ∀ {s : HttpResponse} {w : View HttpResponse} {b : UInt8} {d : Dest},
      s.contentLength = x.length + 1 → x.length + 1 < 2 ^ 31 → Flowing w (s.consume .inLength).1 d →
      ∃ t, Resting (x.foldl httpResponse.viewStep
            (((s.consume .inLength).2.foldl (View.call b) w).take b)) t none ∧ t.cs = .main ∧
        (x.foldl httpResponse.viewStep
            (((s.consume .inLength).2.foldl (View.call b) w).take b)).deliveries =
          w.deliveries ++ (b :: x).map (.byte d) ++ [.finish d] := by
  induction x with
  | nil =>
    intro s w b d hs _ hw
    obtain ⟨t, hcons, ht⟩ := consume_last (by simpa using hs) .inLength
    rw [hcons] at hw ⊢
    obtain ⟨hrest, hdel⟩ := hw.finish s b
    refine ⟨t, hrest, ht, hdel.trans ?_⟩
    simp
  | cons c x ih =>
    intro s w b d hs hlt hw
    obtain ⟨t, hcons, hcs, hlen⟩ := consume_more hs (by simp) (by omega) .inLength
    rw [hcons] at hw ⊢
    obtain ⟨hflow, hdel⟩ := hw.take b
    have hstep : t.step c = t.consume .inLength := by simp only [HttpResponse.step, hcs]
    have hnext : Flowing { w.take b with core := (t.consume .inLength).1 } (t.consume .inLength).1 d :=
      ⟨rfl, hflow.fault, hflow.isOpen, hflow.output⟩
    have hlen' : t.contentLength = x.length + 1 := by rw [hlen]; simp
    obtain ⟨u, hrest, hu, hdel'⟩ := ih (b := c) hlen' (by simp at hlt; omega) hnext
    rw [List.foldl_cons, List.foldl_nil, viewStep_go hflow.core hflow.fault (by rw [hcs]; decide), hstep]
    refine ⟨u, hrest, hu, hdel'.trans ?_⟩
    have hsame : View.deliveries { w.take b with core := (t.consume .inLength).1 } =
        (w.take b).deliveries := rfl
    rw [hsame, hdel]
    simp

theorem length_body {v : View HttpResponse} {s : HttpResponse} (hv : Resting v s none)
    (hcs : s.cs = .consumeLength) {x : Text} (hx : x ≠ []) (hlen : s.contentLength = x.length)
    (hlt : x.length < 2 ^ 31) :
    ∃ t d, Resting (x.foldl httpResponse.viewStep v) t none ∧ t.cs = .main ∧
      (x.foldl httpResponse.viewStep v).deliveries =
        v.deliveries ++ (.start d :: x.map (.byte d) ++ [.finish d]) := by
  obtain ⟨b, x, rfl⟩ := List.exists_cons_of_ne_nil hx
  have hstep : s.step b = after [.destination s.destination, .start] (s.consume .inLength) := by
    simp only [HttpResponse.step, hcs]
  have hfirst : Resting { v with core := (s.consume .inLength).1 } (s.consume .inLength).1 none :=
    ⟨rfl, hv.fault, hv.isOpen, hv.output⟩
  obtain ⟨w, hw, hflow, hdel⟩ := start_view b hfirst s.destination
  obtain ⟨t, hrest, ht, hdel'⟩ := consume_rest x (b := b) (by simpa using hlen)
    (by simpa using hlt) hflow
  rw [List.foldl_cons, viewStep_go hv.core hv.fault (by rw [hcs]; decide), hstep, after,
    List.foldl_append, hw]
  refine ⟨t, s.destination, hrest, ht, hdel'.trans ?_⟩
  have hsame : View.deliveries { v with core := (s.consume .inLength).1 } = v.deliveries := rfl
  rw [hdel, hsame]
  simp

/-! ### Chunks -/

theorem consumeChunk_more {s : HttpResponse} {n : ℕ} (hs : s.chunkLength = n + 1) (hn : 0 < n)
    (hlt : n < 2 ^ 31) (inside : RspState) :
    ∃ t, s.consumeChunk inside = (t, []) ∧ t.cs = inside ∧ t.chunkLength = n ∧ t.chunks = s.chunks := by
  have hval : toInt (s.chunkLength - 1) = n := by
    rw [hs, toInt_of_lt (by omega) (by omega)]
    omega
  refine ⟨{ s with chunkLength := n, cs := inside }, ?_, rfl, rfl, rfl⟩
  simp only [HttpResponse.consumeChunk, hval]
  rw [if_neg (by omega)]
  rfl

theorem consumeChunk_last {s : HttpResponse} (hs : s.chunkLength = 1) (inside : RspState) :
    ∃ t, s.consumeChunk inside = (t, [.pause]) ∧ t.cs = .chunked ∧ t.chunks = s.chunks := by
  have hval : toInt (s.chunkLength - 1) = 0 := by
    rw [hs, toInt_of_lt (by omega) (by omega)]
    rfl
  refine ⟨{ s with chunkLength := 0, cs := .chunked }, ?_, rfl, rfl⟩
  simp only [HttpResponse.consumeChunk, hval]
  rw [if_pos trivial]
  rfl

theorem Flowing.pause {v : View HttpResponse} {s : HttpResponse} {d : Dest} (hv : Flowing v s d)
    (b : UInt8) :
    Resting (([Call.pause].foldl (View.call b) v).take b) s (some d) ∧
      (([Call.pause].foldl (View.call b) v).take b).deliveries = v.deliveries ++ [.byte d b] := by
  have hw : ([Call.pause].foldl (View.call b) v).take b =
      { v with isOpen := false, trace := v.trace ++ [.byte d b] } := by
    simp [View.call, View.take, hv.fault, hv.isOpen, hv.output]
  rw [hw]
  refine ⟨⟨hv.core, hv.fault, rfl, hv.output⟩, ?_⟩
  rw [View.deliveries, View.deliveries, List.filter_append]
  rfl

theorem consumeChunk_rest {inside : RspState} (herr : inside ≠ .error)
    (hin : ∀ (t : HttpResponse) (b : UInt8), t.cs = inside → t.step b = t.consumeChunk inside)
    (x : Text) :
    ∀ {s : HttpResponse} {w : View HttpResponse} {b : UInt8} {d : Dest},
      s.chunkLength = x.length + 1 → x.length + 1 < 2 ^ 31 → Flowing w (s.consumeChunk inside).1 d →
      ∃ t, Resting (x.foldl httpResponse.viewStep
            (((s.consumeChunk inside).2.foldl (View.call b) w).take b)) t (some d) ∧ t.cs = .chunked ∧
        t.chunks = s.chunks ∧
        (x.foldl httpResponse.viewStep
            (((s.consumeChunk inside).2.foldl (View.call b) w).take b)).deliveries =
          w.deliveries ++ (b :: x).map (.byte d) := by
  induction x with
  | nil =>
    intro s w b d hs _ hw
    obtain ⟨t, hcons, ht, hch⟩ := consumeChunk_last (by simpa using hs) inside
    rw [hcons] at hw ⊢
    obtain ⟨hrest, hdel⟩ := hw.pause b
    exact ⟨t, hrest, ht, hch, hdel⟩
  | cons c x ih =>
    intro s w b d hs hlt hw
    obtain ⟨t, hcons, hcs, hlen, hch⟩ := consumeChunk_more hs (by simp) (by omega) inside
    rw [hcons] at hw ⊢
    obtain ⟨hflow, hdel⟩ := hw.take b
    have hnext : Flowing { w.take b with core := (t.consumeChunk inside).1 }
        (t.consumeChunk inside).1 d := ⟨rfl, hflow.fault, hflow.isOpen, hflow.output⟩
    have hlen' : t.chunkLength = x.length + 1 := by rw [hlen]; simp
    obtain ⟨u, hrest, hu, hch', hdel'⟩ := ih (b := c) hlen' (by simp at hlt; omega) hnext
    rw [List.foldl_cons, List.foldl_nil, viewStep_go hflow.core hflow.fault (by rw [hcs]; exact herr),
      hin t c hcs]
    refine ⟨u, hrest, hu, hch'.trans hch, hdel'.trans ?_⟩
    have hsame : View.deliveries { w.take b with core := (t.consumeChunk inside).1 } =
        (w.take b).deliveries := rfl
    rw [hsame, hdel]
    simp

theorem isHexChar_of_digit {b : UInt8} (h : (digitVal 16 b).isSome) :
    isHexChar b = true ∧ b ≠ 13 ∧ b ≠ 10 := by
  have hrange := toNat_of_digit le_rfl h
  refine ⟨?_, ?_, ?_⟩
  · simp only [isHexChar, UInt8.le_iff_toNat_le, UInt8.reduceToNat, decide_eq_true_eq]
    omega
  · rintro rfl
    simp at hrange
  · rintro rfl
    simp at hrange

theorem takes_chunkSize : Takes .chunkSize .chunkSize (isHexChar · = true) :=
  takes_of_step fun s b hs hb => by simp only [HttpResponse.step, hs, if_pos hb]

theorem Quiet.skip {s : HttpResponse} {c : RspState} {b : UInt8} (hcs : s.cs ≠ .error)
    (h : s.step b = (s.goto c, [])) : ∃ t, Quiet s [b] t ∧ Reads s t c [] :=
  ⟨s.goto c, Quiet.single hcs h, rfl, (List.append_nil _).symm, rfl, rfl, rfl, rfl⟩

theorem ext_quiet {x : Text} (hx : ∀ b ∈ x, isLineChar b = true) :
    ∀ {s : HttpResponse}, s.cs = .inChunkExt → ∃ t, Quiet s x t ∧ Reads s t .inChunkExt [] := by
  induction x with
  | nil => exact fun hs => ⟨_, rfl, hs, (List.append_nil _).symm, rfl, rfl, rfl, rfl⟩
  | cons b x ih =>
    intro s hs
    obtain ⟨t, hq, hr⟩ := Quiet.skip (s := s) (c := .inChunkExt) (b := b) (by rw [hs]; decide)
      (by simp only [HttpResponse.step, hs, if_pos (hx b List.mem_cons_self)])
    obtain ⟨u, hq', hr'⟩ := ih (fun b hb => hx b (List.mem_cons_of_mem _ hb)) hr.cs
    exact ⟨u, hq.append hq', hr.trans hr'⟩

theorem renderExt_quiet {ext : Option Text} (hext : ExtWellFormed ext) {s : HttpResponse}
    (hs : s.cs = .chunkSize) : ∃ t, Quiet s (renderExt ext ++ [13]) t ∧ Reads s t .chunkCr [] := by
  cases ext with
  | none =>
    exact Quiet.skip (by rw [hs]; decide) (by simp [HttpResponse.step, hs, isHexChar])
  | some x =>
    obtain ⟨hne, hfield⟩ := hext x rfl
    obtain ⟨b, x, rfl⟩ := List.exists_cons_of_ne_nil hne
    have hline : ∀ c ∈ b :: x, isLineChar c = true :=
      fun c hc => isLineChar_of_isFieldChar (hfield c hc)
    obtain ⟨t₁, hq₁, hr₁⟩ := Quiet.skip (s := s) (c := .chunkExt) (b := 59) (by rw [hs]; decide)
      (by simp [HttpResponse.step, hs, isHexChar])
    obtain ⟨t₂, hq₂, hr₂⟩ := Quiet.skip (s := t₁) (c := .inChunkExt) (b := b) (by rw [hr₁.cs]; decide)
      (by simp only [HttpResponse.step, hr₁.cs, if_pos (hline b List.mem_cons_self)])
    obtain ⟨t₃, hq₃, hr₃⟩ := ext_quiet (fun c hc => hline c (List.mem_cons_of_mem _ hc)) hr₂.cs
    obtain ⟨t₄, hq₄, hr₄⟩ := Quiet.skip (s := t₃) (c := .chunkCr) (b := 13) (by rw [hr₃.cs]; decide)
      (by simp [HttpResponse.step, hr₃.cs, isLineChar])
    have hq := ((hq₁.append hq₂).append hq₃).append hq₄
    have hbytes : [59] ++ [b] ++ x ++ [13] = renderExt (some (b :: x)) ++ [13] := by simp [renderExt]
    exact ⟨t₄, hbytes ▸ hq, ((hr₁.trans hr₂).trans hr₃).trans hr₄⟩

theorem sizeLine_quiet {size : Text} {ext : Option Text} (hne : size ≠ [])
    (hsize : ∀ b ∈ size, (digitVal 16 b).isSome) (hext : ExtWellFormed ext) {s : HttpResponse}
    (hs : s.cs = .chunked) :
    ∃ t, Quiet s (size ++ renderExt ext ++ [13]) t ∧ t.cs = .chunkCr ∧ t.buf = size ∧
      t.chunks = s.chunks := by
  obtain ⟨b, x, rfl⟩ := List.exists_cons_of_ne_nil hne
  obtain ⟨hhex, hcr, hlf⟩ := isHexChar_of_digit (hsize b List.mem_cons_self)
  have hfirst : Quiet s [b] ((s.clear.append b).goto .chunkSize) :=
    Quiet.single (by rw [hs]; decide)
      (by simp only [HttpResponse.step, hs, if_neg hcr, if_neg hlf, if_pos hhex])
  have hreads : Reads s.clear ((s.clear.append b).goto .chunkSize) .chunkSize [b] :=
    ⟨rfl, rfl, rfl, rfl, rfl, rfl⟩
  obtain ⟨t₁, h₁⟩ := takes_chunkSize.loop (by decide) x hreads.cs
    fun c hc => (isHexChar_of_digit (hsize c (List.mem_cons_of_mem _ hc))).1
  obtain ⟨t₂, hq₂, hr₂⟩ := renderExt_quiet hext h₁.2.cs
  have hq := (hfirst.append h₁.1).append hq₂
  have hr := (hreads.trans h₁.2).trans hr₂
  have hbytes : [b] ++ x ++ (renderExt ext ++ [13]) = b :: x ++ renderExt ext ++ [13] := by simp
  refine ⟨t₂, hbytes ▸ hq, hr.cs, ?_, hr.chunks⟩
  rw [hr.buf]
  simp [HttpResponse.clear]

theorem chunkLength_eq {size : Text} (hne : size ≠ []) (hsize : ∀ b ∈ size, (digitVal 16 b).isSome)
    (hlt : numVal 16 size < 2 ^ 31) : toInt (strtol (size ++ [0]) 16) = numVal 16 size := by
  have hval : strtol ([] ++ size ++ [] ++ 0 :: []) 16 = numVal 16 size :=
    strtol_digits (.inr rfl) (fun _ h => absurd h List.not_mem_nil) hne hsize (by simp)
      (fun _ h => absurd h List.not_mem_nil) (fun _ => rfl) hlt
  have hsplit : size ++ [0] = [] ++ size ++ [] ++ 0 :: [] := by simp
  rw [hsplit, hval]
  exact toInt_of_lt (by omega) (by omega)

theorem sizeLine_chunk {c : Chunk} (hwf : c.WellFormed) {s : HttpResponse} (hs : s.cs = .chunked) :
    ∃ t, Quiet s (sizeLine c.size c.ext) t ∧
      t.cs = (if s.chunks = 0 then .consumeFirstChunk else .consumeNextChunk) ∧
      t.chunkLength = c.data.length ∧ t.chunks = toInt (s.chunks + 1) := by
  obtain ⟨u, hq, hcs, hbuf, hch⟩ := sizeLine_quiet hwf.size_ne hwf.size hwf.ext hs
  have hpos : 0 < c.data.length := List.length_pos_of_ne_nil hwf.data_ne
  have hlen : toInt (strtol (u.buf ++ [0]) 16) = c.data.length := by
    rw [hbuf, chunkLength_eq hwf.size_ne hwf.size (by rw [hwf.length]; exact hwf.data_lt), hwf.length]
  have hstep : u.step 10 = u.chunkHeader := by simp [HttpResponse.step, hcs]
  have hheader : u.chunkHeader =
      ({ u with
          buf := u.buf ++ [0]
          chunkLength := c.data.length
          chunks := toInt (s.chunks + 1)
          cs := if s.chunks = 0 then .consumeFirstChunk else .consumeNextChunk }, []) := by
    simp only [HttpResponse.chunkHeader, hlen, hch]
    rw [if_neg (by omega)]
    split_ifs <;> rfl
  have hlast := Quiet.single (b := 10) (by rw [hcs]; decide) (hstep.trans hheader)
  have hbytes : c.size ++ renderExt c.ext ++ [13] ++ [10] = sizeLine c.size c.ext := by
    simp [sizeLine, crlf]
  exact ⟨_, hbytes ▸ hq.append hlast, rfl, rfl, rfl⟩

theorem chunked_crlf {s : HttpResponse} (hs : s.cs = .chunked) :
    ∃ t, Quiet s crlf t ∧ t.cs = .chunked ∧ t.chunks = s.chunks := by
  obtain ⟨t, hq, hr⟩ := Quiet.skip (s := s) (c := .chunkedCr) (b := 13) (by rw [hs]; decide)
    (by simp [HttpResponse.step, hs])
  obtain ⟨u, hq', hr'⟩ := Quiet.skip (s := t) (c := .chunked) (b := 10) (by rw [hr.cs]; decide)
    (by simp [HttpResponse.step, hr.cs])
  exact ⟨u, hq.append hq', hr'.cs, hr'.chunks.trans hr.chunks⟩

theorem chunk_first_data {v : View HttpResponse} {s : HttpResponse} (hv : Resting v s none)
    (hcs : s.cs = .consumeFirstChunk) {x : Text} (hx : x ≠ []) (hlen : s.chunkLength = x.length)
    (hlt : x.length < 2 ^ 31) :
    ∃ t d, Resting (x.foldl httpResponse.viewStep v) t (some d) ∧ t.cs = .chunked ∧
      t.chunks = s.chunks ∧
      (x.foldl httpResponse.viewStep v).deliveries = v.deliveries ++ .start d :: x.map (.byte d) := by
  obtain ⟨b, x, rfl⟩ := List.exists_cons_of_ne_nil hx
  have hstep : s.step b =
      after [.destination s.destination, .start] (s.consumeChunk .inFirstChunk) := by
    simp only [HttpResponse.step, hcs]
  have hfirst : Resting { v with core := (s.consumeChunk .inFirstChunk).1 }
      (s.consumeChunk .inFirstChunk).1 none := ⟨rfl, hv.fault, hv.isOpen, hv.output⟩
  obtain ⟨w, hw, hflow, hdel⟩ := start_view b hfirst s.destination
  have hin : ∀ (t : HttpResponse) (b : UInt8), t.cs = .inFirstChunk →
      t.step b = t.consumeChunk .inFirstChunk := by
    intro t b ht
    simp only [HttpResponse.step, ht]
  obtain ⟨t, hrest, ht, hch, hdel'⟩ := consumeChunk_rest (by decide) hin x (b := b)
    (by simpa using hlen) (by simpa using hlt) hflow
  rw [List.foldl_cons, viewStep_go hv.core hv.fault (by rw [hcs]; decide), hstep, after,
    List.foldl_append, hw]
  refine ⟨t, s.destination, hrest, ht, hch, hdel'.trans ?_⟩
  have hsame : View.deliveries { v with core := (s.consumeChunk .inFirstChunk).1 } = v.deliveries := rfl
  rw [hdel, hsame]
  simp

theorem chunk_next_data {v : View HttpResponse} {s : HttpResponse} {d : Dest}
    (hv : Resting v s (some d)) (hcs : s.cs = .consumeNextChunk) {x : Text} (hx : x ≠ [])
    (hlen : s.chunkLength = x.length) (hlt : x.length < 2 ^ 31) :
    ∃ t, Resting (x.foldl httpResponse.viewStep v) t (some d) ∧ t.cs = .chunked ∧
      t.chunks = s.chunks ∧
      (x.foldl httpResponse.viewStep v).deliveries = v.deliveries ++ x.map (.byte d) := by
  obtain ⟨b, x, rfl⟩ := List.exists_cons_of_ne_nil hx
  have hstep : s.step b = after [.resume] (s.consumeChunk .inNextChunk) := by
    simp only [HttpResponse.step, hcs]
  have hflow : Flowing { v with core := (s.consumeChunk .inNextChunk).1, isOpen := true }
      (s.consumeChunk .inNextChunk).1 d := ⟨rfl, hv.fault, rfl, hv.output⟩
  have hresume : [Call.resume].foldl (View.call b) { v with core := (s.consumeChunk .inNextChunk).1 } =
      { v with core := (s.consumeChunk .inNextChunk).1, isOpen := true } := by
    simp [View.call, hv.fault]
  have hin : ∀ (t : HttpResponse) (b : UInt8), t.cs = .inNextChunk →
      t.step b = t.consumeChunk .inNextChunk := by
    intro t b ht
    simp only [HttpResponse.step, ht]
  obtain ⟨t, hrest, ht, hch, hdel⟩ := consumeChunk_rest (by decide) hin x (b := b)
    (by simpa using hlen) (by simpa using hlt) hflow
  rw [List.foldl_cons, viewStep_go hv.core hv.fault (by rw [hcs]; decide), hstep, after,
    List.foldl_append, hresume]
  exact ⟨t, hrest, ht, hch, hdel⟩

theorem chunk_first {c : Chunk} (hwf : c.WellFormed) {v : View HttpResponse} {s : HttpResponse}
    (hv : Resting v s none) (hcs : s.cs = .chunked) (hch : s.chunks = 0) :
    ∃ t d, Resting (c.render.foldl httpResponse.viewStep v) t (some d) ∧ t.cs = .chunked ∧
      t.chunks = 1 ∧ (c.render.foldl httpResponse.viewStep v).deliveries =
        v.deliveries ++ .start d :: c.data.map (.byte d) := by
  obtain ⟨t₁, hq₁, hcs₁, hlen₁, hch₁⟩ := sizeLine_chunk hwf hcs
  obtain ⟨hrest₁, hdel₁⟩ := hq₁.view hv
  rw [if_pos hch] at hcs₁
  obtain ⟨t₂, d, hrest₂, hcs₂, hch₂, hdel₂⟩ :=
    chunk_first_data hrest₁ hcs₁ hwf.data_ne hlen₁ hwf.data_lt
  obtain ⟨t₃, hq₃, hcs₃, hch₃⟩ := chunked_crlf hcs₂
  obtain ⟨hrest₃, hdel₃⟩ := hq₃.view hrest₂
  rw [Chunk.render, List.foldl_append, List.foldl_append]
  refine ⟨t₃, d, hrest₃, hcs₃, ?_, ?_⟩
  · rw [hch₃, hch₂, hch₁, hch]
    decide
  · rw [hdel₃, hdel₂, hdel₁]

theorem chunk_next {c : Chunk} (hwf : c.WellFormed) {v : View HttpResponse} {s : HttpResponse} {d : Dest}
    (hv : Resting v s (some d)) (hcs : s.cs = .chunked) {k : ℕ} (hch : s.chunks = k) (hk : 0 < k)
    (hlt : k + 1 < 2 ^ 31) :
    ∃ t, Resting (c.render.foldl httpResponse.viewStep v) t (some d) ∧ t.cs = .chunked ∧
      t.chunks = (k + 1 : ℕ) ∧ (c.render.foldl httpResponse.viewStep v).deliveries =
        v.deliveries ++ c.data.map (.byte d) := by
  obtain ⟨t₁, hq₁, hcs₁, hlen₁, hch₁⟩ := sizeLine_chunk hwf hcs
  obtain ⟨hrest₁, hdel₁⟩ := hq₁.view hv
  rw [if_neg (by omega)] at hcs₁
  obtain ⟨t₂, hrest₂, hcs₂, hch₂, hdel₂⟩ :=
    chunk_next_data hrest₁ hcs₁ hwf.data_ne hlen₁ hwf.data_lt
  obtain ⟨t₃, hq₃, hcs₃, hch₃⟩ := chunked_crlf hcs₂
  obtain ⟨hrest₃, hdel₃⟩ := hq₃.view hrest₂
  rw [Chunk.render, List.foldl_append, List.foldl_append]
  refine ⟨t₃, hrest₃, hcs₃, ?_, ?_⟩
  · rw [hch₃, hch₂, hch₁, hch, toInt_of_lt (by omega) (by omega)]
    omega
  · rw [hdel₃, hdel₂, hdel₁]

theorem chunks_next {cs : List Chunk} (hwf : ∀ c ∈ cs, c.WellFormed) {d : Dest} :
    ∀ {v : View HttpResponse} {s : HttpResponse} {k : ℕ}, Resting v s (some d) → s.cs = .chunked →
      s.chunks = k → 0 < k → k + cs.length < 2 ^ 31 →
      ∃ t, Resting ((cs.flatMap Chunk.render).foldl httpResponse.viewStep v) t (some d) ∧
        t.cs = .chunked ∧ ((cs.flatMap Chunk.render).foldl httpResponse.viewStep v).deliveries =
          v.deliveries ++ (cs.flatMap Chunk.data).map (.byte d) := by
  induction cs with
  | nil =>
    intro v s k hv hcs _ _ _
    exact ⟨s, hv, hcs, by simp⟩
  | cons c cs ih =>
    intro v s k hv hcs hch hk hlt
    rw [List.length_cons] at hlt
    obtain ⟨t₁, hrest₁, hcs₁, hch₁, hdel₁⟩ :=
      chunk_next (hwf c List.mem_cons_self) hv hcs hch hk (by omega)
    obtain ⟨t₂, hrest₂, hcs₂, hdel₂⟩ := ih (fun x hx => hwf x (List.mem_cons_of_mem _ hx)) hrest₁ hcs₁
      hch₁ (Nat.succ_pos k) (by omega)
    rw [List.flatMap_cons, List.foldl_append]
    refine ⟨t₂, hrest₂, hcs₂, ?_⟩
    rw [hdel₂, hdel₁]
    simp

theorem last_line {last : Text} {ext : Option Text} (hne : last ≠ []) (hlast : ∀ b ∈ last, b = 48)
    (hext : ExtWellFormed ext) {s : HttpResponse} (hcs : s.cs = .chunked) :
    ∃ u t, Quiet s (last ++ renderExt ext ++ [13]) u ∧ u.cs = .chunkCr ∧
      u.step 10 = (t, u.bodyBlockFinish ++ [Call.vpt (.pop .httpResponse)]) ∧ t.cs = .main := by
  have hdigits : ∀ b ∈ last, (digitVal 16 b).isSome := by
    intro b hb
    rw [hlast b hb]
    decide
  have hzero : numVal 16 last = 0 := by
    have hfold : ∀ x : Text, (∀ b ∈ x, b = 48) →
        x.foldl (fun acc c => acc * 16 + (digitVal 16 c).getD 0) 0 = 0 := by
      intro x
      induction x with
      | nil => exact fun _ => rfl
      | cons b x ih =>
        intro hx
        rw [List.foldl_cons, hx b List.mem_cons_self]
        exact ih fun c hc => hx c (List.mem_cons_of_mem _ hc)
    exact hfold last hlast
  obtain ⟨u, hq, hucs, hbuf, -⟩ := sizeLine_quiet hne hdigits hext hcs
  have hlen : toInt (strtol (u.buf ++ [0]) 16) = 0 := by
    rw [hbuf, chunkLength_eq hne hdigits (by rw [hzero]; decide), hzero]
    rfl
  have hstep : u.step 10 = u.chunkHeader := by simp [HttpResponse.step, hucs]
  refine ⟨u, { u with buf := u.buf ++ [0], chunkLength := 0, cs := .main }, hq, hucs, ?_, rfl⟩
  rw [hstep]
  simp only [HttpResponse.chunkHeader, hlen]
  rw [if_pos trivial]
  rfl

/-- The empty line after the last chunk is read as the beginning of the next status line. -/
theorem empty_line {t : HttpResponse} (ht : t.cs = .main) :
    ∃ u, Quiet t crlf u ∧ u.cs = .version := by
  obtain ⟨t₁, h₁⟩ := takes_main.line (b := 13) (by decide) ht (by decide)
  obtain ⟨t₂, h₂⟩ := takes_version.line (b := 10) (by decide) h₁.2.cs (by decide)
  exact ⟨t₂, h₁.1.append h₂.1, h₂.2.cs⟩

/-- The last chunk, and the empty line that the next status line takes in. -/
theorem last_chunk {last : Text} {ext : Option Text} (hne : last ≠ []) (hlast : ∀ b ∈ last, b = 48)
    (hext : ExtWellFormed ext) {v : View HttpResponse} {s : HttpResponse} {d : Dest}
    (hv : Resting v s (some d)) (hcs : s.cs = .chunked) :
    ∃ t, Resting ((sizeLine last ext ++ crlf).foldl httpResponse.viewStep v) t none ∧
      t.cs = .version ∧ ((sizeLine last ext ++ crlf).foldl httpResponse.viewStep v).deliveries =
        v.deliveries ++ [.finish d] := by
  obtain ⟨u, t, hq, hucs, hstep, ht⟩ := last_line hne hlast hext hcs
  obtain ⟨hrest, hdel⟩ := hq.view hv
  generalize hV : (last ++ renderExt ext ++ [13]).foldl httpResponse.viewStep v = w at hrest hdel
  have hafter : Resting { w with core := t } t (some d) :=
    ⟨rfl, hrest.fault, hrest.isOpen, hrest.output⟩
  obtain ⟨hfin, hdel'⟩ := hafter.finish u 10
  have hbyte : httpResponse.viewStep w 10 =
      ((u.bodyBlockFinish ++ [Call.vpt (.pop .httpResponse)]).foldl (View.call 10)
        { w with core := t }).take 10 := by
    rw [viewStep_go hrest.core hrest.fault (by rw [hucs]; decide), hstep]
  obtain ⟨t₂, hempty, hcs₂⟩ := empty_line ht
  obtain ⟨hend, hsame⟩ := hempty.view hfin
  have hbytes : sizeLine last ext ++ crlf = last ++ renderExt ext ++ [13] ++ ([10] ++ crlf) := by
    simp [sizeLine, crlf]
  rw [hbytes, List.foldl_append, hV, List.foldl_append, List.foldl_cons, List.foldl_nil, hbyte]
  refine ⟨t₂, hend, hcs₂, hsame.trans (hdel'.trans ?_)⟩
  have hcore : View.deliveries { w with core := t } = w.deliveries := rfl
  rw [hcore, hdel]

theorem chunked_body {chunks : List Chunk} {last : Text} {ext : Option Text} (hchunks : chunks ≠ [])
    (hlt : chunks.length < 2 ^ 31) (hwf : ∀ c ∈ chunks, c.WellFormed) (hne : last ≠ [])
    (hlast : ∀ b ∈ last, b = 48) (hext : ExtWellFormed ext) {v : View HttpResponse} {s : HttpResponse}
    (hv : Resting v s none) (hcs : s.cs = .chunked) (hch : s.chunks = 0) :
    ∃ t d, Resting ((Body.chunked chunks last ext).render.foldl httpResponse.viewStep v) t none ∧
      t.cs = .version ∧
      ((Body.chunked chunks last ext).render.foldl httpResponse.viewStep v).deliveries =
        v.deliveries ++ (.start d :: (chunks.flatMap Chunk.data).map (.byte d) ++ [.finish d]) := by
  obtain ⟨c, cs, rfl⟩ := List.exists_cons_of_ne_nil hchunks
  rw [List.length_cons] at hlt
  obtain ⟨t₁, d, hrest₁, hcs₁, hch₁, hdel₁⟩ := chunk_first (hwf c List.mem_cons_self) hv hcs hch
  obtain ⟨t₂, hrest₂, hcs₂, hdel₂⟩ := chunks_next (fun x hx => hwf x (List.mem_cons_of_mem _ hx))
    hrest₁ hcs₁ (k := 1) hch₁ Nat.one_pos (by omega)
  obtain ⟨t₃, hrest₃, hcs₃, hdel₃⟩ := last_chunk hne hlast hext hrest₂ hcs₂
  have hbytes : (Body.chunked (c :: cs) last ext).render =
      c.render ++ (cs.flatMap Chunk.render ++ (sizeLine last ext ++ crlf)) := by
    simp [Body.render]
  rw [hbytes, List.foldl_append, List.foldl_append]
  refine ⟨t₃, d, hrest₃, hcs₃, ?_⟩
  rw [hdel₃, hdel₂, hdel₁]
  simp

/-! ## Sequences of responses -/

/-- The responses of which the parser finds the body. -/
structure Response.Supported (r : Response) (wantCookies : Bool) : Prop where
  reason_ne : r.reason ≠ []
  names : ∀ hd ∈ r.headers, ∀ b ∈ hd.name, isNameChar b = true
  cookies : wantCookies = true → ∀ hd ∈ r.headers, hd.CookieReadable
  body : match r.body with
    | .length _ => True
    | .chunked chunks _ _ =>
        chunks ≠ [] ∧ chunks.length < 2 ^ 31 ∧ ∃ hd ∈ r.headers, hd.SaysChunked
    | .close _ => False

theorem Response.Supported.head {r : Response} {w : Bool} (hsup : r.Supported w) (hwf : r.WellFormed) :
    r.HeadReadable w :=
  ⟨hwf.status, hsup.reason_ne, hwf.reason, hwf.headers, hsup.names, hsup.cookies⟩

theorem head_run {r : Response} {s : HttpResponse} (h : r.HeadReadable s.wantCookies)
    (hs : s.cs = .main ∨ s.cs = .version) :
    ∃ t, Quiet s (r.statusLine ++ r.headers.flatMap Header.render) t ∧
      HeadAt t (r.headers.foldl lengthAfter (-1)) (r.headers.any fun hd => hd.SaysChunked) := by
  obtain ⟨t, hline, hreads⟩ := statusLine_line h hs
  have hwant : t.wantCookies = s.wantCookies := wantCookies_of_settings hline.settings
  obtain ⟨u, hquiet, hu⟩ := headers_run h.headers h.names (headAt_of_lineEnd hreads.cs)
    fun ht => h.cookies (hwant ▸ ht)
  exact ⟨u, hline.append hquiet, by simpa using hu⟩

/-- One response, from the place where a status line may begin to the next such place. -/
theorem response_run {r : Response} (hwf : r.WellFormed) {v : View HttpResponse} {s : HttpResponse}
    (hsup : r.Supported s.wantCookies) (hv : Resting v s none) (hs : s.cs = .main ∨ s.cs = .version) :
    ∃ t d, Resting (r.render.foldl httpResponse.viewStep v) t none ∧
      (t.cs = .main ∨ t.cs = .version) ∧
      (r.render.foldl httpResponse.viewStep v).deliveries =
        v.deliveries ++ (.start d :: r.body.content.map (.byte d) ++ [.finish d]) := by
  obtain ⟨t, hquiet, ht⟩ := head_run (hsup.head hwf) hs
  have hdelim := hwf.delimited
  have hbody := hsup.body
  unfold Response.Delimited at hdelim
  rw [Response.render, List.foldl_append, List.foldl_append]
  obtain ⟨hrest, hdel⟩ := hquiet.view hv
  generalize (r.statusLine ++ r.headers.flatMap Header.render).foldl httpResponse.viewStep v = w
    at hrest hdel ⊢
  split at hdelim
  · rename_i data hkind
    obtain ⟨hne, hlt, hex, hlen, -⟩ := hdelim
    have hcl : r.headers.foldl lengthAfter (-1) = data.length :=
      foldl_lengthAfter (fun hd hmem hnamed => atoi_of_isLength (hlen hd hmem hnamed) hlt) (-1) (.inr hex)
    rw [hcl] at ht
    have hpos : 0 < data.length := List.length_pos_of_ne_nil hne
    obtain ⟨u, hcr, hcs, hcontent⟩ := ht.length (by omega)
    obtain ⟨hrest', hdel'⟩ := hcr.view hrest
    obtain ⟨z, d, hend, hz, hsum⟩ := length_body hrest' hcs hne hcontent hlt
    rw [hkind]
    refine ⟨z, d, hend, .inl hz, hsum.trans ?_⟩
    rw [hdel', hdel]
    rfl
  · rename_i chunks last ext hkind
    rw [hkind] at hbody
    obtain ⟨hchunks, hne, hlast, hext, -, hno⟩ := hdelim
    obtain ⟨hnonempty, hlt, hd, hmem, hsays⟩ := hbody
    have hany : (r.headers.any fun hd => hd.SaysChunked) = true :=
      List.any_eq_true.mpr ⟨hd, hmem, by simpa using hsays⟩
    rw [foldl_lengthAfter_none hno, hany] at ht
    obtain ⟨u, hcr, hcs, hzero⟩ := ht.chunked
    obtain ⟨hrest', hdel'⟩ := hcr.view hrest
    obtain ⟨z, d, hend, hz, hsum⟩ :=
      chunked_body hnonempty hlt hchunks hne hlast hext hrest' hcs hzero
    rw [hkind]
    refine ⟨z, d, hend, .inr hz, hsum.trans ?_⟩
    rw [hdel', hdel]
    rfl
  · rename_i data hkind
    rw [hkind] at hbody
    exact hbody.elim

theorem responses_run {rs : List Response} (hwf : ∀ r ∈ rs, r.WellFormed) :
    ∀ {v : View HttpResponse} {s : HttpResponse}, (∀ r ∈ rs, r.Supported s.wantCookies) →
      Resting v s none → (s.cs = .main ∨ s.cs = .version) →
      ∃ t obs, Resting ((rs.flatMap Response.render).foldl httpResponse.viewStep v) t none ∧
        Delivered (rs.map fun r => r.body.content) obs ∧
        ((rs.flatMap Response.render).foldl httpResponse.viewStep v).deliveries =
          v.deliveries ++ obs := by
  induction rs with
  | nil =>
    intro v s _ hv _
    exact ⟨s, [], hv, .nil, by simp⟩
  | cons r rs ih =>
    intro v s hsup hv hs
    obtain ⟨t, d, hrest, ht, hdel⟩ :=
      response_run (hwf r List.mem_cons_self) (hsup r List.mem_cons_self) hv hs
    have hwant : t.wantCookies = s.wantCookies := by
      have hset := viewStep_settings r.render v
      rw [hrest.core, hv.core] at hset
      exact wantCookies_of_settings hset
    obtain ⟨u, obs, hrest', hobs, hdel'⟩ := ih (fun x hx => hwf x (List.mem_cons_of_mem _ hx))
      (fun x hx => hwant ▸ hsup x (List.mem_cons_of_mem _ hx)) hrest ht
    refine ⟨u, _, ?_, .cons r.body.content d hobs, ?_⟩
    · rw [List.flatMap_cons, List.foldl_append]
      exact hrest'
    · rw [List.flatMap_cons, List.foldl_append, hdel', hdel]
      simp

/-- However the bytes of the responses are cut into `receive` calls, the destinations get one `start`,
the body and one `finish` for each response, and none is used before it is set. -/
theorem response_framing (core : HttpResponse) (rs : List Response) (hwf : ∀ r ∈ rs, r.WellFormed)
    (hsup : ∀ r ∈ rs, r.Supported core.wantCookies) (ds : List Text) (hcut : ds.flatten = rs.flatMap Response.render) :
    let s := ds.foldl httpResponse.receive (startResponse (.new core))
    Delivered (rs.map fun r => r.body.content) (deliveries s.log) ∧ s.fault = false := by
  have hview := (Machine.byteWise httpResponse_lawful).flatten ds (startResponse_ready core)
  rw [hcut] at hview
  have hstart : Resting (startResponse (.new core)).view (core.goto .main) none := ⟨rfl, rfl, rfl, rfl⟩
  obtain ⟨t, obs, hrest, hobs, hdel⟩ := responses_run hwf (s := core.goto .main) hsup hstart (.inl rfl)
  rw [← hview] at hrest hdel
  refine ⟨?_, hrest.fault⟩
  have hempty : (startResponse (.new core)).view.deliveries = [] := rfl
  rw [hempty, List.nil_append] at hdel
  have hlog : deliveries (ds.foldl httpResponse.receive (startResponse (.new core))).log = obs := hdel
  simp only [hlog]
  exact hobs

/-- A response that is sent in chunks. -/
def chunkedResponse (chunks : List Chunk) : Response where
  status := bytes "200"
  reason := bytes "OK"
  headers := [⟨bytes "Transfer-Encoding", bytes " chunked"⟩]
  body := .chunked chunks (bytes "0") none

theorem chunkedHeader_wellFormed : Header.WellFormed ⟨bytes "Transfer-Encoding", bytes " chunked"⟩ where
  name_ne := List.cons_ne_nil _ _
  name := by simp [bytes, isTokenChar]
  value := by simp [bytes, isFieldChar]

theorem chunkedHeader_saysChunked : Header.SaysChunked ⟨bytes "Transfer-Encoding", bytes " chunked"⟩ :=
  ⟨by decide, by decide⟩

theorem chunkedResponse_wellFormed {chunks : List Chunk} (h : ∀ c ∈ chunks, c.WellFormed) :
    (chunkedResponse chunks).WellFormed where
  status := ⟨rfl, by simp [chunkedResponse, bytes, digitVal]⟩
  reason := by simp [chunkedResponse, bytes, isFieldChar]
  headers hd hmem := List.mem_singleton.mp hmem ▸ chunkedHeader_wellFormed
  delimited := by
    have hno : ¬ Header.Named ⟨bytes "Transfer-Encoding", bytes " chunked"⟩ (bytes "Content-Length") := by
      decide
    refine ⟨h, List.cons_ne_nil _ _, by simp [bytes], by simp [ExtWellFormed], ?_,
      fun hd hmem => List.mem_singleton.mp hmem ▸ hno⟩
    refine ⟨_, List.mem_singleton_self _, rfl, [32], bytes "chunked", [], ?_⟩
    exact ⟨rfl, rfl, by simp [isBlank], by simp, by simp⟩

/-- A chunk of three bytes. -/
theorem chunkThree_wellFormed : Chunk.WellFormed ⟨bytes "3", none, bytes "abc"⟩ where
  size_ne := List.cons_ne_nil _ _
  size := by simp [bytes, digitVal]
  length := rfl
  data_ne := List.cons_ne_nil _ _
  data_lt := by decide
  ext := by simp [ExtWellFormed]

theorem chunkedHeader_names {chunks : List Chunk} :
    ∀ hd ∈ (chunkedResponse chunks).headers, ∀ b ∈ hd.name, isNameChar b = true := by
  intro hd hmem
  obtain rfl := List.mem_singleton.mp hmem
  simp [bytes, isNameChar]

theorem chunkedHeader_cookies {chunks : List Chunk} :
    ∀ hd ∈ (chunkedResponse chunks).headers, hd.CookieReadable := by
  intro hd hmem
  obtain rfl := List.mem_singleton.mp hmem
  decide

/-- A response with one chunk, in two pieces, to a parser that wants the cookies. -/
theorem response_framing_chunk :
    let r := chunkedResponse [⟨bytes "3", none, bytes "abc"⟩]
    let s := [r.render.take 50, r.render.drop 50].foldl httpResponse.receive
      (startResponse (.new (HttpResponse.init false true false)))
    Delivered [bytes "abc"] (deliveries s.log) ∧ s.fault = false := by
  refine response_framing _ [chunkedResponse [⟨bytes "3", none, bytes "abc"⟩]] ?_ ?_ _ ?_
  · intro r hr
    obtain rfl := List.mem_singleton.mp hr
    exact chunkedResponse_wellFormed fun c hc => List.mem_singleton.mp hc ▸ chunkThree_wellFormed
  · intro r hr
    obtain rfl := List.mem_singleton.mp hr
    exact ⟨List.cons_ne_nil _ _, chunkedHeader_names, fun _ => chunkedHeader_cookies, by simp, by simp, _,
      List.mem_singleton_self _, chunkedHeader_saysChunked⟩
  · simp

/-- A chunked body without chunks: `finish` is called on a destination that was never set. -/
theorem response_framing_fails :
    ¬ (∀ (core : HttpResponse) (rs : List Response), (∀ r ∈ rs, r.WellFormed) → ∀ ds : List Text,
        ds.flatten = rs.flatMap Response.render →
        let s := ds.foldl httpResponse.receive (startResponse (.new core))
        Delivered (rs.map fun r => r.body.content) (deliveries s.log) ∧ s.fault = false) := by
  intro h
  have hwf : ∀ r ∈ [chunkedResponse []], r.WellFormed := by
    intro r hr
    obtain rfl := List.mem_singleton.mp hr
    exact chunkedResponse_wellFormed fun c hc => absurd hc List.not_mem_nil
  have hrun := (h (HttpResponse.init false false false) [chunkedResponse []] hwf
    [(chunkedResponse []).render] (by simp)).2
  have hfault : ([(chunkedResponse []).render].foldl httpResponse.receive
      (startResponse (.new (HttpResponse.init false false false)))).fault = true := by
    rfl
  rw [hfault] at hrun
  cases hrun

end Netp.Parse
