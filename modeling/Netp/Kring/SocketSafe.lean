import Netp.Kring.Socket

/-! # Which operations stay inside the ringsets

Once for every operation what it can do (`kringBind_cases`, `kringKopen_cases` and so on), then the
invariant `Valid`: a ringset pointer that is not null leads to a ringset, and the ring id beside it
is one of the set's or "all". From a valid state an operation faults exactly where `Safe` fails: no
use of a socket before it is bound, no mapping of the ring one past the last, and no wait on or
release of a control socket bound to all rings.
-/

namespace Netp.Kring.Socket
open Netp.Lib
set_option autoImplicit false

variable {s s' : State} {fd h k : ℕ} {krs : KringSock} {ret : Ret} {r : Ringset}

/-- The ringset a pointer leads to. -/
def State.setOf (s : State) (p : Option ℕ) : Option Ringset := p.bind fun k => s.head[k]?

theorem ringAt_ok {i : ℤ} {n : ℕ} : ringAt r i = .ok n ↔ 0 ≤ i ∧ i < r.nrings ∧ n = i.toNat := by
  unfold ringAt
  split_ifs with hi
  · simp [hi, eq_comm]
  · constructor
    · intro hn
      cases hn
    · rintro ⟨h0, h1, -⟩
      exact absurd ⟨h0, h1⟩ hi

theorem ringAt_of {i : ℤ} (h0 : 0 ≤ i) (h1 : i < r.nrings) : ringAt r i = .ok i.toNat :=
  ringAt_ok.mpr ⟨h0, h1, rfl⟩

theorem deref_ok {p : Option ℕ} {x : ℕ × Ringset} :
    s.deref p = .ok x ↔ p = some x.1 ∧ s.head[x.1]? = some x.2 := by
  obtain ⟨k', r'⟩ := x
  cases p with
  | none => simp [State.deref]
  | some k =>
    cases hk : s.head[k]? with
    | none =>
      simp only [State.deref, hk]
      constructor
      · intro h
        cases h
      · rintro ⟨h1, h2⟩
        cases h1
        rw [hk] at h2
        cases h2
    | some r =>
      simp only [State.deref, hk]
      constructor
      · intro h
        cases h
        exact ⟨rfl, hk⟩
      · rintro ⟨h1, h2⟩
        cases h1
        rw [hk] at h2
        cases h2
        rfl

/-! ## What an operation can do -/

/-- A ring id that `bind` takes: all rings, for a reader, or one of the set's. -/
def RingIdOk (r : Ringset) (mode : KringMode) (ringId : ℤ) : Prop :=
  ringId = kringRingIdAll ∧ mode = .read ∨ 0 ≤ ringId ∧ ringId < r.nrings

theorem RingIdOk.one {mode : KringMode} {ringId : ℤ} (hr : RingIdOk r mode ringId)
    (hne : ringId ≠ kringRingIdAll ∨ mode = .write) : 0 ≤ ringId ∧ ringId < r.nrings := by
  rcases hr with ⟨h1, h2⟩ | hr
  · rcases hne with hne | hne
    · exact absurd h1 hne
    · rw [h2] at hne
      cases hne
  · exact hr

theorem bindChecks_spec {addr : KringAddr} {addrLen : ℤ} {mode : KringMode}
    (h : bindChecks s addr addrLen = some (k, r, mode)) :
    s.head[k]? = some r ∧ RingIdOk r mode addr.ringId := by
  unfold bindChecks at h
  split_ifs at h
  obtain ⟨mode', hm, h⟩ := Option.bind_eq_some_iff.mp h
  obtain ⟨k', hf, h⟩ := Option.bind_eq_some_iff.mp h
  obtain ⟨r', hr, h⟩ := Option.bind_eq_some_iff.mp h
  split_ifs at h with h1 h2
  cases h
  refine ⟨hr, ?_⟩
  unfold RingIdOk
  by_cases hall : addr.ringId = kringRingIdAll
  · cases mode with
    | read => exact .inl ⟨hall, rfl⟩
    | write => exact absurd ⟨rfl, hall⟩ h2
  · have hin : ¬ (addr.ringId < 0 ∨ addr.ringId ≥ (r.nrings : ℤ)) := fun hi => h1 ⟨hall, hi⟩
    push Not at hin
    exact .inr hin

/-- The one mode `kring_kopen` allows for a type. -/
def KringType.mode : KringType → KringMode
  | .data => .write
  | .ctrl => .read

theorem kopenChecks_spec {type : KringType} {rsname : List UInt8} {ringId : ℤ} {mode : KringMode}
    (h : kopenChecks s type rsname ringId mode = some (k, r)) :
    s.head[k]? = some r ∧ 0 ≤ ringId ∧ ringId < r.nrings ∧
      mode = type.mode := by
  unfold kopenChecks at h
  split_ifs at h with h1 h2 h3 h4
  obtain ⟨k', hf, h⟩ := Option.bind_eq_some_iff.mp h
  obtain ⟨r', hr, h⟩ := Option.bind_eq_some_iff.mp h
  split_ifs at h with h5
  cases h
  push Not at h5
  refine ⟨hr, h5.1, h5.2, ?_⟩
  cases type <;> cases mode <;> simp_all [KringType.mode]

def KringMode.role : KringMode → Role
  | .read => .reader
  | .write => .writer

/-- The change of the rings that a ring id names. -/
def State.onRings (s : State) (k : ℕ) (r : Ringset) (ringId : ℤ) (f : Ring → Ring) : State :=
  if ringId = kringRingIdAll then s.mapRings k r.nrings f
  else s.setRing k ringId.toNat (f (s.ring k ringId.toNat))

/-- The id the search of `bind` finds. -/
def freeFor (s : State) (k : ℕ) (r : Ringset) (mode : KringMode) (ringId : ℤ) : Option ℕ :=
  if ringId = kringRingIdAll then freeOnAll s k r else (s.ring k ringId.toNat).freeId r.params mode.role

/-- The socket after a `bind` that took `id`. -/
def boundSock (k : ℕ) (ringId : ℤ) (mode : KringMode) (id : ℕ) : KringSock where
  ringset := some k
  ringId := ringId
  mode := some mode
  writerId := match mode with | .read => -1 | .write => id
  readerId := match mode with | .read => id | .write => -1

theorem kringBind_cases (s : State) (fd : ℕ) (addr : KringAddr) (addrLen : ℤ) :
    (∃ ret, kringBind s fd addr addrLen = .ok (ret, s) ∧
      (bindChecks s addr addrLen = none ∨ ∃ k r mode, bindChecks s addr addrLen = some (k, r, mode) ∧
        freeFor s k r mode addr.ringId = none)) ∨
    ∃ k r mode id, bindChecks s addr addrLen = some (k, r, mode) ∧
      freeFor s k r mode addr.ringId = some id ∧
      kringBind s fd addr addrLen = .ok (⟨0, none⟩,
        (s.onRings k r addr.ringId fun ring => ring.take mode.role id).setSock fd
          (some (boundSock k addr.ringId mode id))) := by
  cases hc : bindChecks s addr addrLen with
  | none => exact .inl ⟨⟨-EINVAL, none⟩, by simp only [kringBind, hc], .inl rfl⟩
  | some x =>
    obtain ⟨k, r, mode⟩ := x
    obtain ⟨-, hid⟩ := bindChecks_spec hc
    by_cases hall : addr.ringId = kringRingIdAll
    · -- only a reader gets here
      obtain ⟨-, rfl⟩ | hin := hid
      · cases hf : freeOnAll s k r with
        | none =>
          refine .inl ⟨⟨-EINVAL, none⟩, ?_, .inr ⟨k, r, .read, rfl, by simp only [freeFor, hall, if_true, hf]⟩⟩
          simp only [kringBind, hc, hall, ne_eq, not_true, if_false, allocateReaderAllRings, hf, Option.map]
        | some id =>
          refine .inr ⟨k, r, .read, id, rfl, by simp only [freeFor, hall, if_true, hf], ?_⟩
          simp only [kringBind, hc, hall, ne_eq, not_true, if_false, allocateReaderAllRings, hf,
            Option.map, State.onRings, if_true, boundSock, KringMode.role]
      · rw [hall, kringRingIdAll] at hin
        omega
    · have hin := hid.one (.inl hall)
      cases hf : (s.ring k addr.ringId.toNat).freeId r.params mode.role with
      | none =>
        refine .inl ⟨⟨-EINVAL, none⟩, ?_, .inr ⟨k, r, mode, rfl, by simp only [freeFor, hall, if_false, hf]⟩⟩
        cases mode with
        | read =>
          rw [KringMode.role] at hf
          simp only [kringBind, hc, hall, ne_eq, not_false_eq_true, if_true, ringAt_of hin.1 hin.2, Except.map,
            Ring.allocateReaderOnRing, Ring.allocate, hf, Option.map]
        | write =>
          rw [KringMode.role] at hf
          simp only [kringBind, hc, ringAt_of hin.1 hin.2, Except.map, Ring.allocateWriterOnRing,
            Ring.allocate, hf, Option.map]
      | some id =>
        refine .inr ⟨k, r, mode, id, rfl, by simp only [freeFor, hall, if_false, hf], ?_⟩
        cases mode with
        | read =>
          rw [KringMode.role] at hf
          simp only [kringBind, hc, hall, ne_eq, not_false_eq_true, if_true, ringAt_of hin.1 hin.2, Except.map,
            Ring.allocateReaderOnRing, Ring.allocate, hf, Option.map, State.onRings, if_false,
            boundSock, KringMode.role]
        | write =>
          rw [KringMode.role] at hf
          simp only [kringBind, hc, hall, ringAt_of hin.1 hin.2, Except.map, Ring.allocateWriterOnRing,
            Ring.allocate, hf, Option.map, State.onRings, if_false, boundSock, KringMode.role]

/-- The handle after a `kopen` that took `id`. -/
def openedKern (k : ℕ) (ringId : ℤ) (mode : KringMode) (id : ℕ) : KringKern where
  ringset := some k
  ringId := ringId
  mode := some mode
  writerId := match mode with | .read => -1 | .write => id
  readerId := match mode with | .read => id | .write => -1
  opened := true

theorem kringKopen_cases (s : State) (h : ℕ) (type : KringType) (rsname : List UInt8) (ringId : ℤ)
    (mode : KringMode) :
    (∃ ret, kringKopen s h type rsname ringId mode = .ok (ret, s) ∧
      kopenChecks s type rsname ringId mode = none) ∨
    ∃ k r, kopenChecks s type rsname ringId mode = some (k, r) ∧
      ((∃ ret, kringKopen s h type rsname ringId mode =
          .ok (ret, s.setKern h { s.kerns h with ringset := some k, ringId := ringId })) ∨
      ∃ id, (s.ring k ringId.toNat).freeId r.params mode.role = some id ∧
        kringKopen s h type rsname ringId mode = .ok (⟨0, none⟩,
          (s.setRing k ringId.toNat ((s.ring k ringId.toNat).take mode.role id)).setKern h
            (openedKern k ringId mode id))) := by
  cases hc : kopenChecks s type rsname ringId mode with
  | none => exact .inl ⟨⟨-1, none⟩, by simp only [kringKopen, hc], rfl⟩
  | some x =>
    obtain ⟨k, r⟩ := x
    obtain ⟨-, h0, h1, hm⟩ := kopenChecks_spec hc
    refine .inr ⟨k, r, rfl, ?_⟩
    cases type with
    | data =>
      subst hm
      simp only [KringType.mode] at hc ⊢
      cases hf : (s.ring k ringId.toNat).freeId r.params .writer with
      | none =>
        exact .inl ⟨⟨-EINVAL, none⟩, by simp only [kringKopen, hc, ringAt_of h0 h1, Except.map,
          Ring.allocateWriterOnRing, Ring.allocate, hf, Option.map]⟩
      | some id =>
        exact .inr ⟨id, hf, by simp only [kringKopen, hc, ringAt_of h0 h1, Except.map,
          Ring.allocateWriterOnRing, Ring.allocate, hf, Option.map, openedKern, KringMode.role]⟩
    | ctrl =>
      subst hm
      simp only [KringType.mode] at hc ⊢
      cases hf : (s.ring k ringId.toNat).freeId r.params .reader with
      | none =>
        exact .inl ⟨⟨-EINVAL, none⟩, by simp only [kringKopen, hc, ringAt_of h0 h1, Except.map,
          Ring.allocateReaderOnRing, Ring.allocate, hf, Option.map]⟩
      | some id =>
        exact .inr ⟨id, hf, by simp only [kringKopen, hc, ringAt_of h0 h1, Except.map,
          Ring.allocateReaderOnRing, Ring.allocate, hf, Option.map, openedKern, KringMode.role]⟩

/-! ## Valid states -/

/-- Every ringset pointer that is not null leads to a ringset, and the ring id goes with it. -/
structure Valid (s : State) : Prop where
  sock : ∀ {fd krs k}, s.socks fd = some krs → krs.ringset = some k →
    ∃ r mode, s.head[k]? = some r ∧ krs.mode = some mode ∧ RingIdOk r mode krs.ringId
  kern : ∀ {h k}, (s.kerns h).ringset = some k →
    ∃ r, s.head[k]? = some r ∧ 0 ≤ (s.kerns h).ringId ∧ (s.kerns h).ringId < r.nrings

theorem Valid.init : Valid {} where
  sock := fun h => by cases h
  kern := fun h => by cases h

theorem Valid.setSock (hv : Valid s) (hhead : s'.head = s.head) (hkerns : s'.kerns = s.kerns)
    {new : Option KringSock} (hsocks : s'.socks = Function.update s.socks fd new)
    (hnew : ∀ krs k, new = some krs → krs.ringset = some k →
      ∃ r mode, s.head[k]? = some r ∧ krs.mode = some mode ∧ RingIdOk r mode krs.ringId) :
    Valid s' where
  sock := by
    intro fd' krs k hk hp
    rw [hsocks] at hk
    rw [hhead]
    by_cases hfd : fd' = fd
    · subst hfd
      rw [Function.update_self] at hk
      exact hnew krs k hk hp
    · rw [Function.update_of_ne hfd] at hk
      exact hv.sock hk hp
  kern := by
    intro h' k hk
    rw [hkerns] at hk ⊢
    rw [hhead]
    exact hv.kern hk

theorem Valid.setKern (hv : Valid s) (hhead : s'.head = s.head) (hsocks : s'.socks = s.socks)
    {new : KringKern} (hkerns : s'.kerns = Function.update s.kerns h new)
    (hnew : ∀ k, new.ringset = some k →
      ∃ r, s.head[k]? = some r ∧ 0 ≤ new.ringId ∧ new.ringId < r.nrings) : Valid s' where
  sock := by
    intro fd' krs k hk hp
    rw [hsocks] at hk
    rw [hhead]
    exact hv.sock hk hp
  kern := by
    intro h' k hk
    rw [hkerns] at hk ⊢
    rw [hhead]
    by_cases hh : h' = h
    · subst hh
      rw [Function.update_self] at hk ⊢
      exact hnew k hk
    · rw [Function.update_of_ne hh] at hk ⊢
      exact hv.kern hk

theorem Valid.alloc (hv : Valid s) (params : Params) (name : List UInt8) (n : ℕ) :
    Valid (kringRingsetAlloc s params name n) where
  sock := by
    intro fd krs k hk hp
    obtain ⟨r, mode, hr, hm⟩ := hv.sock hk hp
    refine ⟨r, mode, ?_, hm⟩
    rw [kringRingsetAlloc, List.getElem?_append_left (List.getElem?_eq_some_iff.mp hr).1]
    exact hr
  kern := by
    intro h k hk
    obtain ⟨r, hr, hi⟩ := hv.kern hk
    refine ⟨r, ?_, hi⟩
    rw [kringRingsetAlloc, List.getElem?_append_left (List.getElem?_eq_some_iff.mp hr).1]
    exact hr

@[simp] theorem onRings_head {ringId : ℤ} {f : Ring → Ring} : (s.onRings k r ringId f).head = s.head := by
  unfold State.onRings
  split <;> rfl

@[simp] theorem onRings_socks {ringId : ℤ} {f : Ring → Ring} :
    (s.onRings k r ringId f).socks = s.socks := by
  unfold State.onRings
  split <;> rfl

@[simp] theorem onRings_kerns {ringId : ℤ} {f : Ring → Ring} :
    (s.onRings k r ringId f).kerns = s.kerns := by
  unfold State.onRings
  split <;> rfl

theorem Valid.kringBind {addr : KringAddr} {addrLen : ℤ} (hv : Valid s)
    (hb : kringBind s fd addr addrLen = .ok (ret, s')) : Valid s' := by
  obtain ⟨ret', h, -⟩ | ⟨k, r, mode, id, hc, -, h⟩ := kringBind_cases s fd addr addrLen
  · rw [h] at hb
    cases hb
    exact hv
  · rw [h] at hb
    cases hb
    refine hv.setSock (by simp [State.setSock]) (by simp [State.setSock])
      (by simp [State.setSock]; rfl) ?_
    intro krs k' hk hp
    cases hk
    cases hp
    obtain ⟨hr, hid⟩ := bindChecks_spec hc
    exact ⟨r, mode, hr, rfl, hid⟩

/-! ## Releasing a socket -/

/-- What the two destructors leave of a ring that the socket has an id on. -/
def destructed (params : Params) (mode : KringMode) (id : ℕ) (ring : Ring) : Ring :=
  match params, mode with
  | .kdata, .read => ring.clear .reader id
  | .kctrl, .read => (ring.drop .reader).clear .reader id
  | _, .write => (ring.clear .writer id).drop .writer

/-- The id a socket of this mode has. -/
def KringSock.id (krs : KringSock) : KringMode → ℕ
  | .read => krs.readerId.toNat
  | .write => krs.writerId.toNat

theorem setRing_setRing (s : State) (k i : ℕ) (a b : Ring) :
    (s.setRing k i a).setRing k i b = s.setRing k i b := by
  simp [State.setRing]

theorem setRing_ring (s : State) (k i : ℕ) (a : Ring) : (s.setRing k i a).ring k i = a := by
  simp [State.setRing]

theorem destruct_ok {mode : KringMode} (hm : krs.mode = some mode) (hid : RingIdOk r mode krs.ringId)
    (hall : r.params = .kctrl → krs.ringId ≠ kringRingIdAll) :
    r.params.destruct s k r krs =
      .ok (s.onRings k r krs.ringId (destructed r.params mode (krs.id mode))) := by
  cases mode with
  | write =>
    have hin := hid.one (.inr rfl)
    have hne : krs.ringId ≠ kringRingIdAll := by
      rw [kringRingIdAll]
      omega
    cases hp : r.params <;>
      simp only [Params.destruct, kdataDestruct, kctrlDestruct, hm, ringAt_of hin.1 hin.2, Except.map,
        State.onRings, hne, if_false, destructed, KringSock.id]
  | read =>
    cases hp : r.params with
    | kdata =>
      by_cases hne : krs.ringId = kringRingIdAll
      · simp only [Params.destruct, kdataDestruct, hm, hne, ne_eq, not_true, if_false, State.onRings,
          if_true, KringSock.id]
        rfl
      · have hin := hid.one (.inl hne)
        simp only [Params.destruct, kdataDestruct, hm, ne_eq, hne, not_false_eq_true, if_true,
          ringAt_of hin.1 hin.2, Except.map, State.onRings, if_false, destructed, KringSock.id]
    | kctrl =>
      have hne := hall hp
      have hin := hid.one (.inl hne)
      simp only [Params.destruct, kctrlDestruct, hm, ne_eq, hne, not_false_eq_true, if_true,
        ringAt_of hin.1 hin.2, Except.bind, State.onRings, if_false, destructed, KringSock.id,
        setRing_ring, setRing_setRing]

/-- `num_readers` of `ring[-1]` is what the destructor of an all-rings control reader goes for. -/
theorem destruct_all_faults (hm : krs.mode = some .read) (hp : r.params = .kctrl)
    (hall : krs.ringId = kringRingIdAll) :
    r.params.destruct s k r krs = .error (.ringIndex (-1)) := by
  have hat : ringAt r (-1) = .error (.ringIndex (-1)) := by
    unfold ringAt
    rw [if_neg (by omega)]
  simp only [hp, Params.destruct, kctrlDestruct, hm, hall, kringRingIdAll, hat, Except.bind]

theorem Valid.release (hv : Valid s) (hs : s.socks fd = some krs)
    (hrel : kringSockRelease s fd krs = .ok (ret, s')) :
    ∃ k r mode, krs.ringset = some k ∧ s.head[k]? = some r ∧ krs.mode = some mode ∧
      RingIdOk r mode krs.ringId ∧ (r.params = .kctrl → krs.ringId ≠ kringRingIdAll) ∧
      s' = (s.onRings k r krs.ringId (destructed r.params mode (krs.id mode))).setSock fd none := by
  obtain ⟨⟨k, r⟩, hd, hrel⟩ := except_bind_ok.mp hrel
  obtain ⟨t, ht, hrel⟩ := except_map_ok.mp hrel
  obtain ⟨hp, hr⟩ := deref_ok.mp hd
  obtain ⟨r', mode, hr', hm, hid⟩ := hv.sock hs hp
  obtain rfl : r = r' := Option.some.inj (hr.symm.trans hr')
  have hall : r.params = .kctrl → krs.ringId ≠ kringRingIdAll := by
    intro hctrl hall
    obtain ⟨-, rfl⟩ | hin := hid
    · rw [destruct_all_faults hm hctrl hall] at ht
      cases ht
    · rw [hall, kringRingIdAll] at hin
      omega
  rw [destruct_ok hm hid hall] at ht
  cases ht
  cases hrel
  exact ⟨k, r, mode, hp, hr, hm, hid, hall, rfl⟩

/-! ## The invariant over sequences -/

theorem onSock_ok {f : KringSock → Result} {x : Ret × State} (h : onSock s fd f = .ok x) :
    x.2 = s ∨ ∃ krs, s.socks fd = some krs ∧ f krs = .ok x := by
  unfold onSock at h
  split at h
  · cases h
    exact .inl rfl
  · next krs hs => exact .inr ⟨krs, hs, h⟩

theorem kringGetsockopt_same {args : OptArgs} (h : kringGetsockopt s krs args = .ok (ret, s')) :
    s' = s := by
  unfold kringGetsockopt at h
  split at h
  · cases h
    rfl
  · split at h
    · cases h
      rfl
    · split at h
      · cases h
        rfl
      · obtain ⟨v, -, h⟩ := except_map_ok.mp h
        split_ifs at h <;> (cases h; rfl)

theorem kringSockMmap_same {pgoff : ℕ} (h : kringSockMmap s krs pgoff = .ok (ret, s')) : s' = s := by
  unfold kringSockMmap at h
  split at h
  · cases h
    rfl
  · obtain ⟨kr, -, h⟩ := except_bind_ok.mp h
    dsimp only at h
    split_ifs at h
    · cases h
      rfl
    · obtain ⟨i, -, h⟩ := except_map_ok.mp h
      cases h
      rfl
    · obtain ⟨i, -, h⟩ := except_map_ok.mp h
      cases h
      rfl
    · cases h
      rfl

theorem kringRecvmsg_same {avail : ℕ → Bool} {signal : Bool}
    (h : kringRecvmsg s krs avail signal = .ok (ret, s')) : s' = s := by
  obtain ⟨kr, -, h⟩ := except_bind_ok.mp h
  obtain ⟨found, -, h⟩ := except_map_ok.mp h
  split_ifs at h <;> (cases h; rfl)

theorem kringSendmsg_same (h : kringSendmsg s krs = .ok (ret, s')) : s' = s := by
  obtain ⟨kr, -, h⟩ := except_map_ok.mp h
  cases h
  rfl

theorem kringKclose_spec (h' : kringKclose s h = .ok (ret, s')) :
    ∃ k i ring, (s.kerns h).ringset = some k ∧
      s' = (s.setRing k i ring).setKern h { s.kerns h with opened := false } := by
  obtain ⟨⟨k, r⟩, hd, h'⟩ := except_bind_ok.mp h'
  obtain ⟨i, -, h'⟩ := except_map_ok.mp h'
  cases h'
  exact ⟨k, i, _, (deref_ok.mp hd).1, rfl⟩

theorem Valid.step {op : Op} (hv : Valid s) (hs : step s op = .ok (ret, s')) : Valid s' := by
  cases op with
  | addData name n =>
    simp only [Socket.step, kringAddDataStore] at hs
    split_ifs at hs <;> cases hs
    · exact hv
    · exact hv.alloc _ _ _
  | addCmd name =>
    cases hs
    exact hv.alloc _ _ _
  | create fd args =>
    simp only [Socket.step] at hs
    split at hs
    · cases hs
      exact hv
    · unfold kdataSockCreate at hs
      split_ifs at hs <;> cases hs
      iterate 4 exact hv
      refine hv.setSock rfl rfl rfl ?_
      intro krs k hk hp
      cases hk
      cases hp
  | bind fd addr addrLen =>
    obtain rfl | ⟨krs, -, h⟩ := onSock_ok hs
    · exact hv
    · exact hv.kringBind h
  | getsockopt fd args =>
    obtain rfl | ⟨krs, -, h⟩ := onSock_ok hs
    · exact hv
    · exact kringGetsockopt_same h ▸ hv
  | mmap fd pgoff =>
    obtain rfl | ⟨krs, -, h⟩ := onSock_ok hs
    · exact hv
    · exact kringSockMmap_same h ▸ hv
  | recvmsg fd avail signal =>
    obtain rfl | ⟨krs, -, h⟩ := onSock_ok hs
    · exact hv
    · exact kringRecvmsg_same h ▸ hv
  | sendmsg fd =>
    obtain rfl | ⟨krs, -, h⟩ := onSock_ok hs
    · exact hv
    · exact kringSendmsg_same h ▸ hv
  | release fd =>
    obtain rfl | ⟨krs, hk, h⟩ := onSock_ok hs
    · exact hv
    · obtain ⟨k, r, mode, -, -, -, -, -, rfl⟩ := hv.release hk h
      refine hv.setSock (by simp [State.setSock]) (by simp [State.setSock])
        (by simp [State.setSock]; rfl) ?_
      intro krs k hk
      cases hk
  | kopen h type rsname ringId mode =>
    obtain ⟨ret', ho, -⟩ | ⟨k, r, hc, ⟨ret', ho⟩ | ⟨id, -, ho⟩⟩ :=
      kringKopen_cases s h type rsname ringId mode
    · rw [Socket.step, ho] at hs
      cases hs
      exact hv
    · rw [Socket.step, ho] at hs
      cases hs
      obtain ⟨hr, h0, h1, -⟩ := kopenChecks_spec hc
      refine hv.setKern rfl rfl rfl ?_
      intro k' hk
      cases hk
      exact ⟨r, hr, h0, h1⟩
    · rw [Socket.step, ho] at hs
      cases hs
      obtain ⟨hr, h0, h1, -⟩ := kopenChecks_spec hc
      refine hv.setKern rfl rfl rfl ?_
      intro k' hk
      cases hk
      exact ⟨r, hr, h0, h1⟩
  | kclose h =>
    obtain ⟨k, i, ring, -, rfl⟩ := kringKclose_spec hs
    exact hv.setKern rfl rfl rfl fun k' hk => hv.kern hk

/-! ## Where the faults are -/

/-- What an operation relies on and the code does not check. -/
def Safe (s : State) : Op → Prop
  | .getsockopt fd args => ∀ krs, s.socks fd = some krs → krs.ringset = none →
      ¬ (args.level = solPacket ∧ args.len = some 4 ∧ args.optname = krOptRingN)
  | .mmap fd pgoff => ∀ krs r, s.socks fd = some krs → s.setOf krs.ringset = some r →
      pgoff &&& 0x1f ≠ r.nrings
  | .recvmsg fd _ _ => ∀ krs, s.socks fd = some krs → ∃ r, s.setOf krs.ringset = some r ∧
      (r.params = .kctrl → krs.ringId ≠ kringRingIdAll)
  | .sendmsg fd => ∀ krs, s.socks fd = some krs → krs.ringset ≠ none
  | .release fd => ∀ krs, s.socks fd = some krs → ∃ r, s.setOf krs.ringset = some r ∧
      (r.params = .kctrl → krs.ringId ≠ kringRingIdAll)
  | .kclose h => (s.kerns h).ringset ≠ none
  | _ => True

/-- The call returns. -/
def Returns (x : Result) : Prop := ∃ y, x = .ok y

theorem onSock_returns {f : KringSock → Result} :
    Returns (onSock s fd f) ↔ ∀ krs, s.socks fd = some krs → Returns (f krs) := by
  unfold onSock
  cases hs : s.socks fd with
  | none =>
    constructor
    · intro _ krs hk
      cases hk
    · exact fun _ => ⟨_, rfl⟩
  | some krs =>
    constructor
    · intro h krs' hk
      cases hk
      exact h
    · intro h
      exact h krs rfl

theorem setOf_eq {p : Option ℕ} : s.setOf p = some r ↔ ∃ k, p = some k ∧ s.head[k]? = some r := by
  cases p <;> simp [State.setOf]

theorem deref_of {p : Option ℕ} (hp : p = some k) (hr : s.head[k]? = some r) :
    s.deref p = .ok (k, r) :=
  deref_ok.mpr ⟨hp, hr⟩

theorem getsockopt_returns {args : OptArgs} (hv : Valid s) (hs : s.socks fd = some krs) :
    Returns (kringGetsockopt s krs args) ↔ (krs.ringset = none →
      ¬ (args.level = solPacket ∧ args.len = some 4 ∧ args.optname = krOptRingN)) := by
  by_cases hask : args.level = solPacket ∧ args.len = some 4 ∧ args.optname = krOptRingN
  · obtain ⟨hl, hlen, hn⟩ := hask
    cases hp : krs.ringset with
    | none =>
      simp only [kringGetsockopt, hl, ne_eq, not_true, if_false, hlen, kringOpt, hn, if_true, hp,
        State.deref, Except.map, Returns]
      simp
    | some k =>
      obtain ⟨r, mode, hr, -⟩ := hv.sock hs hp
      simp only [kringGetsockopt, hl, ne_eq, not_true, if_false, hlen, kringOpt, hn, if_true,
        deref_of hp hr, Except.map, Returns]
      simp
  · refine ⟨fun _ _ => hask, fun _ => ?_⟩
    unfold kringGetsockopt
    split
    · exact ⟨_, rfl⟩
    · next hl =>
      push Not at hl
      split
      · exact ⟨_, rfl⟩
      · next len hlen =>
        split
        · exact ⟨_, rfl⟩
        · next h4 =>
          push Not at h4
          subst h4
          have hn : args.optname ≠ krOptRingN := fun hn => hask ⟨hl, hlen, hn⟩
          obtain ⟨v, hval⟩ : ∃ v, kringOpt s krs args.optname = .ok v := by
            unfold kringOpt
            rw [if_neg hn]
            split_ifs <;> exact ⟨_, rfl⟩
          rw [hval]
          exact ⟨_, rfl⟩

theorem kringSockMmap_eq {pgoff : ℕ} (hp : krs.ringset = some k) (hr : s.head[k]? = some r) :
    kringSockMmap s krs pgoff = if pgoff &&& 0x1f > r.nrings then .ok (⟨-EINVAL, none⟩, s)
      else (ringAt r (pgoff &&& 0x1f : ℕ)).map fun _ => (⟨0, none⟩, s) := by
  have hregion : (pgoff &&& 0x20) >>> 5 = 0 ∨ (pgoff &&& 0x20) >>> 5 = 1 := by
    have hle : pgoff &&& 0x20 ≤ 0x20 := Nat.and_le_right
    have hdiv : (pgoff &&& 0x20) >>> 5 = (pgoff &&& 0x20) / 32 := Nat.shiftRight_eq_div_pow _ 5
    omega
  have hd : deconPgoff pgoff = (pgoff &&& 0x1f, (pgoff &&& 0x20) >>> 5) := rfl
  unfold kringSockMmap
  rw [hp]
  dsimp only
  rw [deref_of rfl hr, hd]
  change (if _ then _ else _) = _
  split_ifs with hgt hctrl hdata
  · rfl
  · rfl
  · rfl
  · exact absurd hregion (by simpa [kringPgoffCtrl, kringPgoffData] using ⟨hctrl, hdata⟩)

theorem mmap_returns {pgoff : ℕ} (hv : Valid s) (hs : s.socks fd = some krs) :
    Returns (kringSockMmap s krs pgoff) ↔
      ∀ r, s.setOf krs.ringset = some r → pgoff &&& 0x1f ≠ r.nrings := by
  cases hp : krs.ringset with
  | none =>
    refine ⟨fun _ r hr => ?_, fun _ => ?_⟩
    · simp [State.setOf] at hr
    · unfold kringSockMmap
      rw [hp]
      exact ⟨_, rfl⟩
  | some k =>
    obtain ⟨r, mode, hr, -⟩ := hv.sock hs hp
    have hset : ∀ r', s.setOf (some k) = some r' ↔ r = r' := by
      intro r'
      simp [State.setOf, hr]
    simp only [hset, forall_eq']
    rw [kringSockMmap_eq hp hr]
    rcases lt_trichotomy (pgoff &&& 0x1f) r.nrings with hlt | heq | hgt
    · refine ⟨fun _ => by omega, fun _ => ?_⟩
      rw [if_neg (by omega), ringAt_of (by omega) (by omega)]
      exact ⟨_, rfl⟩
    · refine ⟨fun h => ?_, fun h => absurd heq h⟩
      rw [if_neg (by omega)] at h
      obtain ⟨y, h⟩ := h
      obtain ⟨i, hi, -⟩ := except_map_ok.mp h
      have hlt := (ringAt_ok.mp hi).2.1
      omega
    · refine ⟨fun _ => by omega, fun _ => ?_⟩
      rw [if_pos (by omega)]
      exact ⟨_, rfl⟩

theorem anyRing_ok {avail : ℕ → Bool} (is : List ℕ) (his : ∀ i ∈ is, i < r.nrings) (b : Bool) :
    ∃ b', is.foldlM (fun found (i : ℕ) => if found then .ok true else (ringAt r i).map avail) b =
      Except.ok b' := by
  induction is generalizing b with
  | nil => exact ⟨b, rfl⟩
  | cons i is ih =>
    have hi : i < r.nrings := his i List.mem_cons_self
    have hat : ringAt r i = .ok i := by
      rw [ringAt_of (by omega) (by omega)]
      simp
    rw [List.foldlM_cons]
    cases b with
    | true => exact ih (fun j hj => his j (List.mem_cons_of_mem _ hj)) true
    | false =>
      simp only [Bool.false_eq_true, if_false, hat]
      exact ih (fun j hj => his j (List.mem_cons_of_mem _ hj)) (avail i)

theorem wait_returns {mode : KringMode} (avail : ℕ → Bool) (hid : RingIdOk r mode krs.ringId) :
    (∃ b, r.params.wait r krs avail = .ok b) ↔ (r.params = .kctrl → krs.ringId ≠ kringRingIdAll) := by
  cases hp : r.params with
  | kdata =>
    refine ⟨fun _ h => (by cases h), fun _ => ?_⟩
    by_cases hall : krs.ringId = kringRingIdAll
    · simp only [Params.wait, kdataKernAvail, hall, ne_eq, not_true, if_false]
      exact anyRing_ok _ (fun i hi => List.mem_range.mp hi) false
    · have hin := hid.one (.inl hall)
      simp only [Params.wait, kdataKernAvail, ne_eq, hall, not_false_eq_true, if_true,
        ringAt_of hin.1 hin.2]
      exact ⟨_, rfl⟩
  | kctrl =>
    constructor
    · rintro ⟨b, h⟩ - hall
      obtain ⟨i, hi, -⟩ := except_map_ok.mp h
      have h0 := (ringAt_ok.mp hi).1
      rw [hall, kringRingIdAll] at h0
      omega
    · intro h
      have hin := hid.one (.inl (h rfl))
      simp only [Params.wait, kctrlWait, ringAt_of hin.1 hin.2]
      exact ⟨_, rfl⟩

theorem recvmsg_returns {avail : ℕ → Bool} {signal : Bool} (hv : Valid s)
    (hs : s.socks fd = some krs) : Returns (kringRecvmsg s krs avail signal) ↔
      ∃ r, s.setOf krs.ringset = some r ∧ (r.params = .kctrl → krs.ringId ≠ kringRingIdAll) := by
  constructor
  · rintro ⟨y, h⟩
    obtain ⟨⟨k, r⟩, hd, h⟩ := except_bind_ok.mp h
    obtain ⟨b, hb, -⟩ := except_map_ok.mp h
    obtain ⟨hp, hr⟩ := deref_ok.mp hd
    obtain ⟨r', mode, hr', -, hid⟩ := hv.sock hs hp
    obtain rfl : r = r' := Option.some.inj (hr.symm.trans hr')
    exact ⟨r, setOf_eq.mpr ⟨k, hp, hr⟩, (wait_returns avail hid).mp ⟨b, hb⟩⟩
  · rintro ⟨r, hr, hall⟩
    obtain ⟨k, hp, hr⟩ := setOf_eq.mp hr
    obtain ⟨r', mode, hr', -, hid⟩ := hv.sock hs hp
    obtain rfl : r = r' := Option.some.inj (hr.symm.trans hr')
    obtain ⟨b, hb⟩ := (wait_returns avail hid).mpr hall
    unfold kringRecvmsg
    rw [deref_of hp hr]
    simp only [Except.bind, hb]
    exact ⟨_, rfl⟩

theorem release_returns (hv : Valid s) (hs : s.socks fd = some krs) :
    Returns (kringSockRelease s fd krs) ↔
      ∃ r, s.setOf krs.ringset = some r ∧ (r.params = .kctrl → krs.ringId ≠ kringRingIdAll) := by
  constructor
  · rintro ⟨⟨ret, s'⟩, h⟩
    obtain ⟨k, r, mode, hp, hr, -, -, hall, -⟩ := hv.release hs h
    exact ⟨r, setOf_eq.mpr ⟨k, hp, hr⟩, hall⟩
  · rintro ⟨r, hr, hall⟩
    obtain ⟨k, hp, hr⟩ := setOf_eq.mp hr
    obtain ⟨r', mode, hr', hm, hid⟩ := hv.sock hs hp
    obtain rfl : r = r' := Option.some.inj (hr.symm.trans hr')
    unfold kringSockRelease
    rw [deref_of hp hr]
    simp only [Except.bind, destruct_ok hm hid hall]
    exact ⟨_, rfl⟩

theorem kclose_returns (hv : Valid s) : Returns (kringKclose s h) ↔ (s.kerns h).ringset ≠ none := by
  constructor
  · rintro ⟨⟨ret, s'⟩, h'⟩
    obtain ⟨k, i, ring, hp, -⟩ := kringKclose_spec h'
    simp [hp]
  · intro hne
    obtain ⟨k, hp⟩ := Option.ne_none_iff_exists'.mp hne
    obtain ⟨r, hr, h0, h1⟩ := hv.kern hp
    unfold kringKclose
    rw [deref_of hp hr]
    simp only [Except.bind, ringAt_of h0 h1]
    exact ⟨_, rfl⟩

theorem step_returns_iff (hv : Valid s) (op : Op) : Returns (step s op) ↔ Safe s op := by
  cases op with
  | addData name n => exact ⟨fun _ => trivial, fun _ => ⟨_, rfl⟩⟩
  | addCmd name => exact ⟨fun _ => trivial, fun _ => ⟨_, rfl⟩⟩
  | create fd args =>
    refine ⟨fun _ => trivial, fun _ => ?_⟩
    simp only [step]
    split <;> exact ⟨_, rfl⟩
  | bind fd addr addrLen =>
    refine ⟨fun _ => trivial, fun _ => onSock_returns.mpr fun krs hk => ?_⟩
    obtain ⟨ret', h, -⟩ | ⟨k, r, mode, id, -, -, h⟩ := kringBind_cases s fd addr addrLen
    · exact ⟨_, h⟩
    · exact ⟨_, h⟩
  | getsockopt fd args =>
    refine onSock_returns.trans ?_
    exact forall_congr' fun krs => imp_congr_right fun hs => getsockopt_returns hv hs
  | mmap fd pgoff =>
    refine onSock_returns.trans ?_
    refine (forall_congr' fun krs => imp_congr_right fun hs => mmap_returns hv hs).trans ?_
    exact ⟨fun h krs r hs hr => h krs hs r hr, fun h krs hs r hr => h krs r hs hr⟩
  | recvmsg fd avail signal =>
    refine onSock_returns.trans ?_
    exact forall_congr' fun krs => imp_congr_right fun hs => recvmsg_returns hv hs
  | sendmsg fd =>
    refine onSock_returns.trans (forall_congr' fun krs => imp_congr_right fun hs => ?_)
    constructor
    · rintro ⟨y, h⟩
      obtain ⟨kr, hd, -⟩ := except_map_ok.mp h
      simp [(deref_ok.mp hd).1]
    · intro hne
      obtain ⟨k, hp⟩ := Option.ne_none_iff_exists'.mp hne
      obtain ⟨r, mode, hr, -⟩ := hv.sock hs hp
      unfold kringSendmsg
      rw [deref_of hp hr]
      exact ⟨_, rfl⟩
  | release fd =>
    refine onSock_returns.trans ?_
    exact forall_congr' fun krs => imp_congr_right fun hs => release_returns hv hs
  | kopen h type rsname ringId mode =>
    refine ⟨fun _ => trivial, fun _ => ?_⟩
    obtain ⟨ret', ho, -⟩ | ⟨k, r, -, ⟨ret', ho⟩ | ⟨id, -, ho⟩⟩ :=
      kringKopen_cases s h type rsname ringId mode
    · exact ⟨_, ho⟩
    · exact ⟨_, ho⟩
    · exact ⟨_, ho⟩
  | kclose h => exact kclose_returns hv

/-- A sequence of operations is free of null ringsets and of indices outside a ringset exactly when
each operation is safe in the state the ones before it lead to. -/
theorem socket_accesses_ok (ops : List Op) : (∃ s, exec {} ops = .ok s) ↔
    ∀ pre op post s, ops = pre ++ op :: post → exec {} pre = .ok s → Safe s op := by
  have hkeep : ∀ s op s', Valid s → (step s op).map Prod.snd = .ok s' → Valid s' := by
    intro s op s' hv hs
    obtain ⟨⟨ret, t⟩, ht, rfl⟩ := except_map_ok.mp hs
    exact hv.step ht
  have hsafe : ∀ s op, Valid s → ((∃ s', (step s op).map Prod.snd = .ok s') ↔ Safe s op) := by
    intro s op hv
    rw [← step_returns_iff hv op]
    constructor
    · rintro ⟨s', h⟩
      obtain ⟨y, hy, -⟩ := except_map_ok.mp h
      exact ⟨y, hy⟩
    · rintro ⟨y, hy⟩
      exact ⟨y.2, except_map_ok.mpr ⟨y, hy, rfl⟩⟩
  exact foldlM_ok_iff hkeep hsafe ops {} Valid.init

/-- A name in the array of an address. -/
def addrName (name : List UInt8) : Vector UInt8 kringNlen := Vector.ofFn fun i => name.getD i 0

/-- A socket whose `bind` names no ringset, and the destructor that follows. -/
theorem socket_null_ringset : ¬ ∃ s, exec {} [.create 3 ⟨true, true, true, true⟩,
    .bind 3 ⟨addrName [114], 0, 1⟩ 40, .release 3] = .ok s := by
  have hfault : exec {} [.create 3 ⟨true, true, true, true⟩, .bind 3 ⟨addrName [114], 0, 1⟩ 40,
      .release 3] = .error .nullRingset := by
    rfl
  rintro ⟨s, h⟩
  rw [hfault] at h
  cases h

end Netp.Kring.Socket
