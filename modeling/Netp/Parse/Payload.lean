import Netp.Parse.HandlerFrames
import Netp.Lib.CString

/-! # Which bytes of a frame are handed over (`parse/handler.cc`, `tcp.cc`, `udp.cc`)

A packet ends where its IP header says or where the capture ends, whichever comes first. The handler
computes both lengths. To a connection it hands `caplen` bytes, so with what was put behind a short
packet to fill the frame (`padding_handed`); to the DNS parser it hands `dlen` bytes, so beyond the
capture where the frame was cut off. And a flag that is left set by a frame that was cut off makes it take
the next frame, headers included, for the rest of that one. `payload_iff` says for which calls the bytes
are right.

Bytes are named by their positions from the pointer `bytes` on. What is in the memory behind the captured
bytes is anything.
-/

namespace Netp.Parse
open Netp.Lib
set_option autoImplicit false

/-- A call of `Handler::handler`. -/
structure Captured where
  dir : Dir
  /-- What `srcProtected` and `dstProtected` say of the frame. -/
  srcProtected : Bool
  dstProtected : Bool
  /-- `h->caplen` -/
  caplen : UInt32
  /-- The memory from `bytes` on: `caplen` bytes are captured, the others are not. -/
  page : Text
  /-- History: the page goes on with the frame of the call before, and so many bytes of its packet are
  left. -/
  rest : Option ℕ

/-- Whose data it is. -/
inductive Receiver
  | half (h : HalfRef)
  | dns
  deriving DecidableEq

/-- `packet->data` as a position, and the length that goes with it. -/
structure Handed where
  receiver : Receiver
  data : ℕ
  length : ℤ
  deriving DecidableEq

/-- The positions of the bytes, if the length is one. -/
def Handed.positions (x : Handed) : Option (List ℕ) :=
  if x.length < 0 then none else some (List.range' x.data x.length.toNat)

/-- What the machines read of it, with the memory from `bytes` on. -/
def Handed.read (x : Handed) (page : Text) : Text := readBytes (page.drop x.data) x.length

/-- The offset of the data of an UDP datagram. -/
def udpDataOff (page : Text) : ℕ := thOff page + 8

namespace Captured

/-- The direction of the packet, none for one that is dropped. -/
def packetDir (c : Captured) : Option Dir :=
  if c.dir ≠ .unknown then some c.dir
  else if c.srcProtected && !c.dstProtected then some .egress
  else if !c.srcProtected && c.dstProtected then some .ingress
  else none

/-- `packet->caplen`, of a page whose headers are those of TCP. -/
def tcpCaplen (c : Captured) : ℤ := toInt (c.caplen.toNat - thlen c.page - ihlen c.page - sizeofEthhdr)

/-- One of the ports is 53. -/
def isDns (c : Captured) : Bool := be16 c.page (thOff c.page) = 53 || be16 c.page (thOff c.page + 2) = 53

/-- The headers of the page are read, and they lead to `tcp` or to `udp`. -/
def leadsTo (c : Captured) (proto : ℕ) : Bool :=
  isIp c.page && c.packetDir.isSome && decide (protocol c.page = proto)

end Captured

namespace Handler

/-- The half that the ports and addresses belong to, if its connection is established. -/
def establishedHalf (s : Handler) (page : Text) : Option HalfRef :=
  (s.find (halfKey page)).filter fun half =>
    (s.conns[half.1]?).any fun c => decide (c.state = .established)

/-- What `flowData` or `DnsParser::data` is called with. -/
def hands (s : Handler) (c : Captured) : Option Handed :=
  if s.continuation then some ⟨.half s.contHalf, 0, toInt c.caplen.toNat⟩
  else if c.leadsTo 6 then
    (s.establishedHalf c.page).map fun half => ⟨.half half, dataOff c.page, c.tcpCaplen⟩
  else if c.leadsTo 17 && c.isDns then
    some ⟨.dns, udpDataOff c.page, (totLen c.page : ℤ) - 8 - ihlen c.page⟩
  else none

/-- `flowData` gives the data to a parser: the half has one, or gets one from the identifier now. -/
def takes (s : Handler) (half : HalfRef) (data : Text) : Bool :=
  (s.conns[half.1]?).any fun c =>
    let conn := if c.conn.proto = .working then c.conn.identify [] half.2 data else c.conn
    match half.2 with
    | .h1 => conn.h1.parser.isSome
    | .h2 => conn.h2.parser.isSome

/-- What is handed over reaches a parser. -/
def reaches (s : Handler) (x : Handed) (page : Text) : Bool :=
  match x.receiver with
  | .half half => s.takes half (x.read page)
  | .dns => true

end Handler

/-- Where the packet ends in the page. -/
def packetEnd (c : Captured) : ℕ := min (sizeofEthhdr + totLen c.page) c.caplen.toNat

/-- The bytes after the transport header up to the end of the packet; of a page that goes on with a frame,
those up to the end of the packet. -/
def Captured.payload (c : Captured) (receiver : Receiver) : List ℕ :=
  match c.rest with
  | some n => List.range' 0 (min n c.caplen.toNat)
  | none =>
      let off := match receiver with
        | .half _ => dataOff c.page
        | .dns => udpDataOff c.page
      List.range' off (packetEnd c - off)

/-- What reaches a parser is the payload. -/
def Handler.PayloadRight (s : Handler) (c : Captured) : Prop :=
  ∀ x, s.hands c = some x → s.reaches x c.page = true → x.positions = some (c.payload x.receiver)

/-! ## When it is right -/

namespace Captured

/-- A page that is taken for the rest of a frame. -/
def FitsRest (c : Captured) : Prop :=
  match c.rest with
  | some n => c.caplen.toNat ≤ n ∧ c.caplen.toNat < 2 ^ 31
  | none => c.caplen.toNat = 0

/-- The capture ends with the packet or before, and after the headers. -/
def FitsTcp (c : Captured) : Prop :=
  match c.rest with
  | some n => c.caplen.toNat = dataOff c.page ∧ n = 0
  | none => dataOff c.page ≤ c.caplen.toNat ∧
      (c.caplen.toNat ≤ sizeofEthhdr + totLen c.page ∨ c.caplen.toNat = dataOff c.page)

/-- The packet ends with the capture or before, and after the headers. -/
def FitsDns (c : Captured) : Prop :=
  match c.rest with
  | some n => sizeofEthhdr + totLen c.page = udpDataOff c.page ∧ (n = 0 ∨ c.caplen.toNat = 0)
  | none => udpDataOff c.page ≤ sizeofEthhdr + totLen c.page ∧
      (sizeofEthhdr + totLen c.page ≤ c.caplen.toNat ∨ sizeofEthhdr + totLen c.page = udpDataOff c.page)

end Captured

/-- The lengths agree where a parser is reached. -/
def Handler.LengthsAgree (s : Handler) (c : Captured) : Prop :=
  if s.continuation then
    s.takes s.contHalf (readBytes c.page (toInt c.caplen.toNat)) = true → c.FitsRest
  else if c.leadsTo 6 then
    ∀ half, s.establishedHalf c.page = some half →
      s.takes half (readBytes (c.page.drop (dataOff c.page)) c.tcpCaplen) = true → c.FitsTcp
  else if c.leadsTo 17 && c.isDns then c.FitsDns
  else True

/-! ## The proof -/

theorem toInt_u32 {v : ℤ} (hlo : -2 ^ 31 ≤ v) (hhi : v < 2 ^ 32) :
    toInt v = if v < 2 ^ 31 then v else v - 2 ^ 32 := by
  split_ifs with h
  · exact toInt_of_lt hlo h
  · have hwrap : toInt v = toInt (v - 2 ^ 32) := (Int.sub_bmod_right v (2 ^ 32)).symm
    rw [hwrap, toInt_of_lt] <;> omega

theorem positions_eq_iff {receiver : Receiver} {data off n : ℕ} {length : ℤ} :
    (Handed.mk receiver data length).positions = some (List.range' off n) ↔
      length = n ∧ (data = off ∨ n = 0) := by
  unfold Handed.positions
  simp only
  by_cases hneg : length < 0
  · rw [if_pos hneg]
    constructor
    · intro h
      cases h
    · omega
  · rw [if_neg hneg, Option.some.injEq, List.range'_inj]
    omega

theorem headers_lt (page : Text) : dataOff page ≤ 134 ∧ udpDataOff page ≤ 134 ∧ 14 ≤ thOff page := by
  have hb := (page.getD sizeofEthhdr 0).toNat_lt
  have ht := (page.getD (thOff page + 12) 0).toNat_lt
  unfold dataOff udpDataOff thlen thOff ihlen byteAt at *
  unfold sizeofEthhdr at *
  omega

section Right
variable {s : Handler} {c : Captured}

theorem rest_iff (half : HalfRef) :
    (Handed.mk (.half half) 0 (toInt c.caplen.toNat)).positions = some (c.payload (.half half)) ↔
      c.FitsRest := by
  have hlt := c.caplen.toNat_lt
  have hint := toInt_u32 (v := c.caplen.toNat) (by omega) (by omega)
  obtain ⟨hoff, -, hth⟩ := headers_lt c.page
  have hdata : thOff c.page ≤ dataOff c.page := Nat.le_add_right _ _
  unfold Captured.payload Captured.FitsRest packetEnd
  cases hrest : c.rest with
  | some n =>
    simp only
    rw [positions_eq_iff, hint]
    split_ifs <;> omega
  | none =>
    simp only
    rw [positions_eq_iff, hint]
    split_ifs <;> omega

theorem tcp_iff (half : HalfRef) :
    (Handed.mk (.half half) (dataOff c.page) c.tcpCaplen).positions =
      some (c.payload (.half half)) ↔ c.FitsTcp := by
  have hlt := c.caplen.toNat_lt
  obtain ⟨hoff, -, hth⟩ := headers_lt c.page
  have hdata : thOff c.page ≤ dataOff c.page := Nat.le_add_right _ _
  have hlen : (c.caplen.toNat : ℤ) - thlen c.page - ihlen c.page - sizeofEthhdr =
      c.caplen.toNat - dataOff c.page := by
    unfold dataOff thOff
    push_cast
    omega
  have hint := toInt_u32 (v := c.caplen.toNat - dataOff c.page) (by omega) (by omega)
  have htot : totLen c.page < 65536 := by
    have h1 := (c.page.getD (sizeofEthhdr + 2) 0).toNat_lt
    have h2 := (c.page.getD (sizeofEthhdr + 2 + 1) 0).toNat_lt
    unfold totLen be16 byteAt
    omega
  have heth : sizeofEthhdr = 14 := rfl
  unfold Captured.tcpCaplen
  rw [hlen]
  unfold Captured.payload Captured.FitsTcp packetEnd
  cases hrest : c.rest with
  | some n =>
    simp only
    rw [positions_eq_iff, hint]
    split_ifs <;> omega
  | none =>
    simp only
    rw [positions_eq_iff, hint]
    split_ifs <;> omega

theorem dns_iff :
    (Handed.mk .dns (udpDataOff c.page) ((totLen c.page : ℤ) - 8 - ihlen c.page)).positions =
      some (c.payload .dns) ↔ c.FitsDns := by
  have hlen : (totLen c.page : ℤ) - 8 - ihlen c.page =
      (sizeofEthhdr + totLen c.page : ℕ) - udpDataOff c.page := by
    unfold udpDataOff thOff
    push_cast
    omega
  have hpos : 0 < udpDataOff c.page := Nat.succ_pos _
  rw [hlen]
  unfold Captured.payload Captured.FitsDns packetEnd
  cases hrest : c.rest with
  | some n =>
    simp only
    rw [positions_eq_iff]
    omega
  | none =>
    simp only
    rw [positions_eq_iff]
    omega

theorem reaches_rest (half : HalfRef) (length : ℤ) :
    s.reaches ⟨.half half, 0, length⟩ c.page = s.takes half (readBytes c.page length) := rfl

/-- **The payload is right exactly where the lengths agree.** -/
theorem payload_iff (s : Handler) (c : Captured) : s.PayloadRight c ↔ s.LengthsAgree c := by
  unfold Handler.PayloadRight Handler.LengthsAgree Handler.hands
  by_cases hcont : s.continuation = true
  · rw [if_pos hcont, if_pos hcont]
    constructor
    · intro h htakes
      exact (rest_iff s.contHalf).1 (h _ rfl ((reaches_rest _ _).trans htakes))
    · intro h x hx htakes
      obtain rfl := Option.some.inj hx
      exact (rest_iff s.contHalf).2 (h ((reaches_rest _ _).symm.trans htakes))
  rw [if_neg hcont, if_neg hcont]
  by_cases htcp : c.leadsTo 6 = true
  · rw [if_pos htcp, if_pos htcp]
    constructor
    · intro h half hhalf htakes
      exact (tcp_iff half).1 (h _ (Option.map_eq_some_iff.2 ⟨half, hhalf, rfl⟩) htakes)
    · intro h x hx htakes
      obtain ⟨half, hhalf, rfl⟩ := Option.map_eq_some_iff.1 hx
      exact (tcp_iff half).2 (h half hhalf htakes)
  rw [if_neg htcp, if_neg htcp]
  by_cases hdns : (c.leadsTo 17 && c.isDns) = true
  · rw [if_pos hdns, if_pos hdns]
    constructor
    · intro h
      exact dns_iff.1 (h _ rfl rfl)
    · intro h x hx _
      obtain rfl := Option.some.inj hx
      exact dns_iff.2 h
  · rw [if_neg hdns, if_neg hdns]
    refine iff_of_true (fun x hx => ?_) trivial
    cases hx

/-! ## The pages of the ring -/

/-- A page of the ring as `sniffKring` passes it on. -/
def Entry.captured (e : Entry) (rest : Option ℕ) : Captured where
  dir := if e.inside then .egress else .ingress
  srcProtected := false
  dstProtected := false
  caplen := UInt32.ofNat e.caplen
  page := e.bytes
  rest := rest

theorem captured_caplen (e : Entry) (rest : Option ℕ) : (e.captured rest).caplen.toNat = e.caplen := by
  have hle : e.caplen ≤ kdataPacketMaxData := by
    unfold Entry.caplen
    split_ifs <;> omega
  change (UInt32.ofNat e.caplen).toNat = e.caplen
  rw [UInt32.toNat_ofNat']
  unfold kdataPacketMaxData at hle
  omega

theorem captured_leadsTo (e : Entry) (rest : Option ℕ) (proto : ℕ) :
    (e.captured rest).leadsTo proto = (isIp e.bytes && decide (protocol e.bytes = proto)) := by
  have hdir : (e.captured rest).packetDir.isSome = true := by
    unfold Captured.packetDir Entry.captured
    cases e.inside <;> rfl
  unfold Captured.leadsTo
  rw [hdir, Bool.and_true]
  rfl

theorem flowEstab_data {half half' : HalfRef} {data : Text} {dlen caplen : ℤ} {continued : Bool}
    {t : Handler} {x : Treated} (h : s.flowEstabState half data dlen caplen continued = some (t, x))
    (hhalf : x.half = some half') : half' = half ∧ x.data = data.take caplen.toNat := by
  simp only [Handler.flowEstabState, Option.ite_none_left_eq_some] at h
  obtain ⟨-, h⟩ := h
  obtain ⟨-, rfl⟩ := Prod.mk.inj (Option.some.inj h)
  exact ⟨(Option.some.inj hhalf).symm, rfl⟩

/-- The data that a page of the ring is treated as is what is handed over. -/
theorem handler_hands {e : Entry} {t : Handler} {x : Treated} {half : HalfRef}
    (h : s.handler e = some (t, x)) (hhalf : x.half = some half) (rest : Option ℕ) :
    ∃ y, s.hands (e.captured rest) = some y ∧ y.receiver = .half half ∧
      x.data = (e.bytes.drop y.data).take y.length.toNat := by
  have hcaplen := captured_caplen e rest
  have hle : e.caplen ≤ kdataPacketMaxData := by
    unfold Entry.caplen
    split_ifs <;> omega
  unfold kdataPacketMaxData at hle
  unfold Handler.handler at h
  unfold Handler.hands
  rw [captured_leadsTo, hcaplen]
  by_cases hcont : s.continuation = true
  · simp only [if_pos hcont] at h ⊢
    obtain ⟨rfl, hdata⟩ := flowEstab_data h hhalf
    rw [toInt_of_lt (by omega) (by omega)]
    exact ⟨_, rfl, rfl, hdata⟩
  simp only [if_neg hcont] at h ⊢
  by_cases hip : isIp e.bytes = true
  · by_cases htcp : protocol e.bytes = 6
    · simp only [hip, htcp, if_true, decide_true, Bool.and_self] at h ⊢
      unfold Handler.tcp at h
      cases hfind : s.find (halfKey e.bytes) with
      | none =>
        simp only [hfind] at h
        obtain ⟨-, rfl⟩ := Prod.mk.inj (Option.some.inj h)
        cases hhalf
      | some half' =>
        simp only [hfind] at h
        cases hconn : s.conns[half'.1]? with
        | none =>
          simp only [hconn] at h
          cases h
        | some conn =>
          simp only [hconn] at h
          cases hstate : conn.state with
          | syn =>
            simp only [hstate] at h
            obtain ⟨-, rfl⟩ := Prod.mk.inj (Option.some.inj h)
            cases hhalf
          | synAck =>
            simp only [hstate] at h
            obtain ⟨-, rfl⟩ := Prod.mk.inj (Option.some.inj h)
            cases hhalf
          | established =>
            simp only [hstate] at h
            obtain ⟨rfl, hdata⟩ := flowEstab_data h hhalf
            have hest : s.establishedHalf e.bytes = some half := by
              simp [Handler.establishedHalf, hfind, hconn, hstate, Option.filter]
            have hhands : s.establishedHalf (e.captured rest).page = some half := hest
            rw [hhands]
            refine ⟨_, rfl, rfl, ?_⟩
            obtain ⟨hoff, -, -⟩ := headers_lt e.bytes
            unfold dataOff thOff at hoff
            change x.data = (e.bytes.drop (dataOff e.bytes)).take
              (toInt ((e.captured rest).caplen.toNat - thlen e.bytes - ihlen e.bytes - sizeofEthhdr)).toNat
            rw [hcaplen, toInt_of_lt (by omega) (by omega)]
            exact hdata
    · simp only [hip, htcp, if_true, if_false] at h
      obtain ⟨-, rfl⟩ := Prod.mk.inj (Option.some.inj h)
      cases hhalf
  · simp only [if_neg hip] at h
    obtain ⟨-, rfl⟩ := Prod.mk.inj (Option.some.inj h)
    cases hhalf

end Right

/-! ## Padding -/

/-- A frame that opens a connection, and one in which the identifier finds HTTP. -/
def requestFrames : List Entry :=
  [⟨true, 54, (ackFrame 0 40 []).bytes⟩, ⟨true, 70, (ackFrame 0 56 (bytes "GET / HTTP/1.1\r\n")).bytes⟩]

/-- An acknowledgement without data of the same connection, filled up to the 60 bytes of the shortest
frame. -/
def paddedFrame : Captured where
  dir := .egress
  srcProtected := false
  dstProtected := false
  caplen := 60
  page := (ackFrame 0 40 (List.replicate 6 0)).bytes
  rest := none

theorem padding_handed : ¬ ∀ (s : Handler) (c : Captured), s.PayloadRight c := by
  intro h
  obtain ⟨r, hr⟩ : ∃ r, Handler.init.read requestFrames = some r :=
    Option.isSome_iff_exists.1 rfl
  have hrun : (Handler.init.read requestFrames).all (fun r =>
      decide (r.1.hands paddedFrame = some ⟨.half (0, .h1), 54, 6⟩) &&
        r.1.reaches ⟨.half (0, .h1), 54, 6⟩ paddedFrame.page) = true := by
    rfl
  rw [hr, Option.all_some, Bool.and_eq_true, decide_eq_true_eq] at hrun
  have hright := h r.1 paddedFrame _ hrun.1 hrun.2
  have hempty : paddedFrame.payload (.half (0, .h1)) = [] := rfl
  rw [hempty] at hright
  revert hright
  decide

end Netp.Parse
