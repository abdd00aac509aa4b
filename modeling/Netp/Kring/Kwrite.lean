import Netp.Kring.DataOrder
import Netp.Lib.CString
import Netp.Lib.Fuel
import Netp.Lib.Mem

/-! # A packet in pages (`kdata_kwrite` in `kring/kdata.c`, `kdata_next_packet` in `kring/kdata.h`)

The writer puts in the header of a page how many bytes are left of the packet from this page on, never
how many it stores. The reader finds that out itself: what is left, if it fits into the page. What it
reads is the packet, cut where pages are full (`kwrite_fragments`). Through the ring, a reader that keeps
up gets the same (`kwrite_received`).
-/

namespace Netp.Kring.Data
open Netp.Lib
set_option autoImplicit false

def kringPageSize : ℕ := 4096

/-- `sizeof(struct kdata_packet_header)`: `len`, `dir` and padding. -/
def sizeofPacketHeader : ℕ := 8

def kdataPacketMaxData : ℤ := kringPageSize - sizeofPacketHeader

/-- A page, byte by byte. -/
abbrev Page := Mem Unit

/-- The data of a `struct sk_buff`; `skb->len` is its length. -/
abbrev SkBuff := List UInt8

def skbCopyBits (skb : SkBuff) (offset write : ℤ) : List UInt8 :=
  (skb.drop offset.toNat).take write.toNat

/-- `kdata_write_single`; `page` is what `kdata_write_FIRST` returns, with what was left in it. -/
def kdataWriteSingle (dir : ℤ) (skb : SkBuff) (offset write len : ℤ) (page : Page) : Page :=
  let page := page.store () 0 (le 4 (len % 2 ^ 32).toNat)
  let page := page.store () 4 [UInt8.ofInt dir]
  page.store () sizeofPacketHeader (skbCopyBits skb offset write)

/-- The loop of `kdata_kwrite` from `offset` on. `old i` is the page that the `i`-th write gets. The
difference is `unsigned`, and then an `int`. -/
def kwriteLoop (dir : ℤ) (skb : SkBuff) (old : ℕ → Page) : ℕ → ℕ → ℤ → Option (List Page)
  | 0, _, _ => none
  | fuel + 1, i, offset =>
    let len := toInt (skb.length - offset)
    if len ≤ 0 then some []
    else
      let write := if len > kdataPacketMaxData then kdataPacketMaxData else len
      (kwriteLoop dir skb old fuel (i + 1) (offset + write)).map
        (kdataWriteSingle dir skb offset write len (old i) :: ·)

/-- The pages as they are when `kdata_write_SECOND` publishes them. -/
def kdataKwrite (dir : ℤ) (skb : SkBuff) (old : ℕ → Page) (fuel : ℕ) : Option (List Page) :=
  kwriteLoop dir skb old fuel 0 0

/-- The conversion to `char`, which is signed. -/
def toChar (v : ℤ) : ℤ := v.bmod (2 ^ 8)

/-- `struct kdata_packet`. -/
structure KdataPacket where
  dir : ℤ
  len : ℤ
  caplen : ℤ
  /-- `bytes`, a pointer behind the header. -/
  bytes : ℕ → UInt8

/-- `h->len` -/
def headerLen (page : Page) : ℤ := toInt (ofLe (page.load () 0 4))

/-- `kdata_next_packet` with the page that `kdata_next_generic` returns. -/
def kdataNextPacket (page : Page) : KdataPacket where
  len := headerLen page
  caplen := if headerLen page ≤ kdataPacketMaxData then headerLen page else kdataPacketMaxData
  dir := toChar (page () 4).toNat
  bytes j := page () (sizeofPacketHeader + j)

def KdataPacket.captured (p : KdataPacket) : List UInt8 := (List.range p.caplen.toNat).map p.bytes

/-! ## One page -/

section Single
variable (dir offset write : ℤ) {len : ℤ} (skb : SkBuff) (page : Page)

theorem headerLen_write (h0 : 0 ≤ len) (h : len < 2 ^ 31) :
    headerLen (kdataWriteSingle dir skb offset write len page) = len := by
  have hload : (kdataWriteSingle dir skb offset write len page).load () 0 4 =
      le 4 (len % 2 ^ 32).toNat := by
    unfold kdataWriteSingle
    rw [Mem.load_store_of_disjoint, Mem.load_store_of_disjoint]
    · have hself := Mem.load_store_self page () 0 (le 4 (len % 2 ^ 32).toNat)
      rwa [le_length] at hself
    · exact .inr (.inl (Nat.le_refl 4))
    · exact .inr (.inl (Nat.le_add_right 4 4))
  rw [headerLen, hload, ofLe_le_of_lt (by omega), toInt_of_lt] <;> omega

theorem next_len (h0 : 0 ≤ len) (h : len < 2 ^ 31) :
    (kdataNextPacket (kdataWriteSingle dir skb offset write len page)).len = len := by
  simp only [kdataNextPacket, headerLen_write dir offset write skb page h0 h]

theorem next_caplen (h0 : 0 ≤ len) (h : len < 2 ^ 31) :
    (kdataNextPacket (kdataWriteSingle dir skb offset write len page)).caplen =
      if len > kdataPacketMaxData then kdataPacketMaxData else len := by
  simp only [kdataNextPacket, headerLen_write dir offset write skb page h0 h]
  by_cases hle : len ≤ kdataPacketMaxData
  · rw [if_pos hle, if_neg (by omega)]
  · rw [if_neg hle, if_pos (by omega)]

theorem next_dir :
    (kdataNextPacket (kdataWriteSingle dir skb offset write len page)).dir = toChar dir := by
  have hdir : (kdataWriteSingle dir skb offset write len page).load () 4 1 = [UInt8.ofInt dir] := by
    unfold kdataWriteSingle
    rw [Mem.load_store_of_disjoint]
    · exact Mem.load_store_self _ () 4 [UInt8.ofInt dir]
    · exact .inr (.inl (Nat.le_add_right 5 3))
  have hbyte : kdataWriteSingle dir skb offset write len page () 4 = UInt8.ofInt dir :=
    List.head_eq_of_cons_eq hdir
  have hnat : ((UInt8.ofInt dir).toNat : ℤ) = dir % 2 ^ 8 := by
    rw [UInt8.ofInt, UInt8.toNat_ofNat']
    omega
  rw [kdataNextPacket, hbyte]
  simp only [toChar, hnat]
  exact Int.emod_bmod dir (2 ^ 8)

/-- What the reader finds behind the header is what was copied there. -/
theorem next_captured {n : ℕ} (hn : n = (skbCopyBits skb offset write).length) :
    (List.range n).map (kdataNextPacket (kdataWriteSingle dir skb offset write len page)).bytes =
      skbCopyBits skb offset write := by
  rw [hn]
  exact Mem.load_store_self _ () sizeofPacketHeader _

end Single

/-! ## The whole packet -/

/-- How many bytes the pages before the `k`-th hold. -/
def capturedBefore (ps : List KdataPacket) (k : ℕ) : ℤ := ((ps.take k).map KdataPacket.caplen).sum

/-- `ps` is what a reader should get of the packet `skb`. -/
structure Fragments (dir : ℤ) (skb : SkBuff) (ps : List KdataPacket) : Prop where
  count : (ps.length : ℤ) = (skb.length + (kdataPacketMaxData - 1)) / kdataPacketMaxData
  /-- `len` is what is left of the packet. -/
  remaining : ∀ k p, ps[k]? = some p → p.len = skb.length - capturedBefore ps k
  decreasing : (ps.map KdataPacket.len).Pairwise (· > ·)
  caplen : ∀ p ∈ ps, 0 < p.caplen ∧ p.caplen ≤ kdataPacketMaxData
  total : (ps.map KdataPacket.caplen).sum = skb.length
  bytes : ps.flatMap KdataPacket.captured = skb
  dir : ∀ p ∈ ps, p.dir = toChar dir

theorem Fragments.nil (dir : ℤ) : Fragments dir [] [] where
  count := rfl
  remaining _ _ h := by simp at h
  decreasing := .nil
  caplen _ h := absurd h List.not_mem_nil
  total := rfl
  bytes := rfl
  dir _ h := absurd h List.not_mem_nil

theorem Fragments.cons {dir : ℤ} {skb : SkBuff} {p : KdataPacket} {ps : List KdataPacket} {n : ℕ}
    (hn : 0 < n) (hlen : p.len = skb.length) (hcap : p.caplen = n) (hmax : (n : ℤ) ≤ kdataPacketMaxData)
    (hfull : (n : ℤ) = kdataPacketMaxData ∨ n = skb.length) (hdir : p.dir = toChar dir)
    (hbytes : p.captured = skb.take n) (h : Fragments dir (skb.drop n) ps) :
    Fragments dir skb (p :: ps) := by
  have hmaxData : kdataPacketMaxData = 4088 := rfl
  have hle : n ≤ skb.length := by
    have hcapLen : p.captured.length = n := by simp [KdataPacket.captured, hcap]
    rw [hbytes, List.length_take] at hcapLen
    omega
  have hdrop : ((skb.drop n).length : ℤ) = skb.length - n := by
    rw [List.length_drop]
    omega
  refine ⟨?_, ?_, ?_, ?_, ?_, ?_, ?_⟩
  · have hcount := h.count
    rw [hdrop, hmaxData] at hcount
    rw [hmaxData] at hmax hfull ⊢
    rw [List.length_cons]
    omega
  · intro k q hq
    cases k with
    | zero =>
      obtain rfl : p = q := by simpa using hq
      simp [capturedBefore, hlen]
    | succ k =>
      have hrem := h.remaining k q (by simpa using hq)
      simp only [capturedBefore, List.take_succ_cons, List.map_cons, List.sum_cons, hcap] at hrem ⊢
      omega
  · rw [List.map_cons, List.pairwise_cons]
    refine ⟨?_, h.decreasing⟩
    intro len hmem
    obtain ⟨q, hq, rfl⟩ := List.mem_map.1 hmem
    obtain ⟨k, hk⟩ := List.getElem?_of_mem hq
    have hrem := h.remaining k q hk
    have hpos : 0 ≤ capturedBefore ps k := by
      refine List.sum_nonneg fun x hx => ?_
      obtain ⟨r, hr, rfl⟩ := List.mem_map.1 hx
      exact (h.caplen r (List.mem_of_mem_take hr)).1.le
    omega
  · intro q hq
    rcases List.mem_cons.1 hq with rfl | hq
    · omega
    · exact h.caplen q hq
  · rw [List.map_cons, List.sum_cons, h.total, hcap]
    omega
  · rw [List.flatMap_cons, h.bytes, hbytes, List.take_append_drop]
  · intro q hq
    rcases List.mem_cons.1 hq with rfl | hq
    · exact hdir
    · exact h.dir q hq

theorem kwriteLoop_succ (dir : ℤ) (skb : SkBuff) (old : ℕ → Page) (fuel i : ℕ) (offset : ℤ) :
    kwriteLoop dir skb old (fuel + 1) i offset =
      let len := toInt (skb.length - offset)
      if len ≤ 0 then some []
      else
        let write := if len > kdataPacketMaxData then kdataPacketMaxData else len
        (kwriteLoop dir skb old fuel (i + 1) (offset + write)).map
          (kdataWriteSingle dir skb offset write len (old i) :: ·) := rfl

theorem kwriteLoop_grows (dir : ℤ) (skb : SkBuff) (old : ℕ → Page) (i : ℕ) (offset : ℤ) :
    Grows fun fuel => kwriteLoop dir skb old fuel i offset := by
  intro fuel
  induction fuel generalizing i offset with
  | zero => intro pages h; cases h
  | succ fuel ih =>
    intro pages h
    simp only at h ⊢
    rw [kwriteLoop_succ] at h ⊢
    by_cases hlen : toInt (skb.length - offset) ≤ 0
    · simp only [if_pos hlen] at h ⊢
      exact h
    · simp only [if_neg hlen] at h ⊢
      exact (ih (i + 1) _).map _ pages h

/-- The loop from `offset` on cuts up what is left. `hn` bounds the rounds. -/
theorem kwriteLoop_fragments (dir : ℤ) (skb : SkBuff) (old : ℕ → Page) (h31 : skb.length < 2 ^ 31)
    (fuel : ℕ) : ∀ i offset : ℕ, offset ≤ skb.length → skb.length - offset < fuel →
      ∃ pages, kwriteLoop dir skb old fuel i offset = some pages ∧
        Fragments dir (skb.drop offset) (pages.map kdataNextPacket) := by
  have hmaxData : kdataPacketMaxData = 4088 := rfl
  induction fuel with
  | zero => intro i offset _ hn; omega
  | succ fuel ih =>
    intro i offset hle hn
    obtain ⟨n, hlen⟩ : ∃ n : ℕ, n = skb.length - offset := ⟨_, rfl⟩
    have hint : toInt ((skb.length : ℤ) - offset) = n := by
      rw [toInt_of_lt] <;> omega
    rw [kwriteLoop_succ]
    simp only [hint]
    by_cases hzero : n = 0
    · refine ⟨[], if_pos (by omega), ?_⟩
      have hdrop : skb.drop offset = [] := List.drop_eq_nil_of_le (by omega)
      rw [hdrop]
      exact .nil dir
    · rw [if_neg (by omega)]
      obtain ⟨w, hw⟩ : ∃ w : ℕ, (if (n : ℤ) > kdataPacketMaxData then kdataPacketMaxData else (n : ℤ)) = w ∧
          0 < w ∧ w ≤ n ∧ (w : ℤ) ≤ kdataPacketMaxData ∧ ((w : ℤ) = kdataPacketMaxData ∨ w = n) := by
        by_cases hbig : (n : ℤ) > kdataPacketMaxData
        · refine ⟨4088, (if_pos hbig).trans hmaxData, ?_⟩
          omega
        · refine ⟨n, if_neg hbig, ?_⟩
          omega
      obtain ⟨hwrite, hpos, hwn, hwmax, hfull⟩ := hw
      obtain ⟨pages, hloop, hfrag⟩ := ih (i + 1) (offset + w) (by omega) (by omega)
      rw [hwrite]
      push_cast at hloop
      rw [hloop]
      refine ⟨_, rfl, ?_⟩
      have hcopy : skbCopyBits skb offset w = (skb.drop offset).take w := rfl
      have hcap : (kdataNextPacket (kdataWriteSingle dir skb offset w n (old i))).caplen = _ :=
        next_caplen dir offset w skb (old i) (by omega) (by omega)
      rw [hwrite] at hcap
      refine Fragments.cons hpos ?_ hcap hwmax ?_ (next_dir dir offset w skb (old i)) ?_ ?_
      · rw [next_len dir offset w skb (old i) (by omega) (by omega), List.length_drop, hlen]
      · rw [List.length_drop, ← hlen]
        exact hfull
      · rw [KdataPacket.captured, hcap]
        refine next_captured dir offset w skb (old i) ?_
        rw [hcopy, List.length_take, List.length_drop]
        omega
      · rw [List.drop_drop]
        exact hfrag

/-- **A packet goes through the pages whole.** -/
theorem kwrite_fragments (dir : ℤ) (skb : SkBuff) (old : ℕ → Page) (h0 : 0 < skb.length)
    (h31 : skb.length < 2 ^ 31) :
    Returns (kdataKwrite dir skb old) ∧ ∀ pages, Yields (kdataKwrite dir skb old) pages →
      Fragments dir skb (pages.map kdataNextPacket) ∧
        (pages.map kdataNextPacket).head?.map KdataPacket.len = some (skb.length : ℤ) ∧
        (-128 ≤ dir ∧ dir < 128 → ∀ p ∈ pages.map kdataNextPacket, p.dir = dir) := by
  obtain ⟨pages, hloop, hfrag⟩ := kwriteLoop_fragments dir skb old h31 (skb.length + 1) 0 0
    (Nat.zero_le _) (by omega)
  have hyields : Yields (kdataKwrite dir skb old) pages := ⟨_, hloop⟩
  refine ⟨⟨pages, hyields⟩, ?_⟩
  intro pages' hpages'
  obtain rfl := (kwriteLoop_grows dir skb old 0 0).unique hyields hpages'
  rw [List.drop_zero] at hfrag
  refine ⟨hfrag, ?_, ?_⟩
  · cases hpages : pages.map kdataNextPacket with
    | nil =>
      have htotal := hfrag.total
      rw [hpages] at htotal
      simp at htotal
      omega
    | cons p ps =>
      have hfirst := hfrag.remaining 0 p (by rw [hpages]; rfl)
      simpa [capturedBefore] using hfirst
  · rintro ⟨hlo, hhi⟩ p hp
    rw [hfrag.dir p hp, toChar, Int.bmod_eq_of_le (by omega) (by omega)]

theorem kwrite_fragments_two : (List.replicate 5000 (7 : UInt8)).length = 5000 ∧
    ∀ pages, Yields (kdataKwrite 1 (List.replicate 5000 7) fun _ _ _ => 0) pages →
      Fragments 1 (List.replicate 5000 7) (pages.map kdataNextPacket) := by
  have hlen : (List.replicate 5000 (7 : UInt8)).length = 5000 := List.length_replicate
  refine ⟨hlen, fun pages hpages => ?_⟩
  exact ((kwrite_fragments 1 (List.replicate 5000 7) (fun _ _ _ => 0) (by omega) (by omega)).2 pages
    hpages).1

/-! ## Through the ring -/

instance inhabitedPage : Inhabited Page := ⟨fun _ _ => 0⟩

/-- A reader that keeps up, and entered when `kdata_kwrite` was called, returns the fragments of the
packet. -/
theorem kwrite_received {dir : ℤ} {skb : SkBuff} {old : ℕ → Page} {s : State 1 Page} {r : ReaderId}
    (hrun : ReachIf (ring 1 Page) (fun s a => noOverrun s && claimHolds s a) s)
    (h31 : skb.length < 2 ^ 31)
    (hwritten : Yields (kdataKwrite dir skb old) (s.hist.written.drop (s.hist.entry r)))
    (hidle : s.reader r = .idle) (hend : s.rhead r = s.whead) :
    ∃ ps, (s.hist.recv r).map (Option.map fun m => kdataNextPacket m.data) = ps.map some ∧
      Fragments dir skb ps := by
  obtain ⟨pages, hloop, hfrag⟩ := kwriteLoop_fragments dir skb old h31 (skb.length + 1) 0 0
    (Nat.zero_le _) (by omega)
  obtain rfl : pages = _ := (kwriteLoop_grows dir skb old 0 0).unique ⟨_, hloop⟩ hwritten
  refine ⟨_, ?_, hfrag⟩
  have hall := ((orderInv_run hrun).receives r).all hidle hend
  have hmap := congrArg (List.map (Option.map kdataNextPacket)) hall
  simpa [Function.comp_def] using hmap

end Netp.Kring.Data
