import Netp.Kring.SocketSafe

/-! # Who has which reader and writer id

An open handle (a bound socket, a handle of `kring_kopen`) has a claim: an id, as reader or writer,
on one ring of a set or on all of them. In a state where the books are right (`Accounted`) the
counters of every ring count its flags, and a flag is set exactly where one open handle has the id.

Opening keeps the books (`Inv.acquire`), and so does closing where it undoes what opening did
(`Inv.release`). The other closing paths do not, nor does a second `bind`.
-/

namespace Netp.Kring.Socket
open Netp.Lib
set_option autoImplicit false

variable {s s' : State} {fd h k i : ℕ} {krs : KringSock} {ret : Ret} {r : Ringset}

def sockets : System State Op := ⟨{}, fun s op => (step s op).toOption.map Prod.snd⟩

inductive Handle
  | sock (fd : ℕ)
  | kern (h : ℕ)
  deriving DecidableEq

/-- What an open handle was given. -/
structure Claim where
  set : ℕ
  ringId : ℤ
  role : Role
  id : ℕ

/-- The claim has this id on ring `i` of set `k`. -/
def Claim.Covers (c : Claim) (role : Role) (k i id : ℕ) : Prop :=
  c.set = k ∧ (c.ringId = kringRingIdAll ∨ c.ringId = i) ∧ c.role = role ∧ c.id = id

def KringSock.claim (krs : KringSock) : Option Claim :=
  krs.ringset.bind fun k => krs.mode.map fun mode => ⟨k, krs.ringId, mode.role, krs.id mode⟩

def KringKern.id (kring : KringKern) : KringMode → ℕ
  | .read => kring.readerId.toNat
  | .write => kring.writerId.toNat

def KringKern.claim (kring : KringKern) : Option Claim :=
  if kring.opened then
    kring.ringset.bind fun k => kring.mode.map fun mode => ⟨k, kring.ringId, mode.role, kring.id mode⟩
  else none

namespace State

def claim (s : State) : Handle → Option Claim
  | .sock fd => (s.socks fd).bind KringSock.claim
  | .kern h => (s.kerns h).claim

/-- The open handle `hd` has the id on ring `i` of set `k`. -/
def Holds (s : State) (hd : Handle) (role : Role) (k i id : ℕ) : Prop :=
  ∃ c, s.claim hd = some c ∧ c.Covers role k i id

end State

/-- How many of the ids below `n` have their flag set. -/
def Ring.taken (ring : Ring) (role : Role) (n : ℕ) : ℕ := (List.range n).countP (ring.allocated role)

/-- `n` ids taken one after another. -/
def Ring.takeTimes (role : Role) (params : Params) : ℕ → Ring → Option (List ℕ × Ring)
  | 0, ring => some ([], ring)
  | n + 1, ring => (ring.allocate role params).bind fun x =>
      (takeTimes role params n x.2).map fun y => (x.1 :: y.1, y.2)

structure Accounted (s : State) : Prop where
  /-- `num_readers` and `num_writers` count the flags. -/
  counted : ∀ {k r i} role, s.head[k]? = some r → i < r.nrings →
    (s.ring k i).num role = (s.ring k i).taken role (r.params.ids role)
  held : ∀ {k r i id} role, s.head[k]? = some r → i < r.nrings → id < r.params.ids role →
    ((s.ring k i).allocated role id = true ↔ ∃! hd, s.Holds hd role k i id)
  /-- With every handle closed the ids of a ring can all be taken again. -/
  reusable : (∀ hd, s.claim hd = none) → ∀ {k r i} role, s.head[k]? = some r → i < r.nrings →
    ∃ ring, (s.ring k i).takeTimes role r.params (r.params.ids role) =
      some (List.range (r.params.ids role), ring)

/-- The steps that keep the books: no `bind` that succeeds on a bound socket, no release of a data
reader or of an all-rings reader, no `kring_kopen` that gets past its checks on an open handle, and
no `kring_kclose`. -/
def Kept (s : State) : Op → Prop
  | .bind fd addr addrLen => ∀ krs, s.socks fd = some krs → krs.ringset = none ∨
      bindChecks s addr addrLen = none ∨ ∃ k r mode, bindChecks s addr addrLen = some (k, r, mode) ∧
        freeFor s k r mode addr.ringId = none
  | .release fd => ∀ krs r, s.socks fd = some krs → s.setOf krs.ringset = some r →
      krs.mode = some .read → r.params = .kctrl ∧ krs.ringId ≠ kringRingIdAll
  | .kopen h type rsname ringId mode =>
      (s.kerns h).opened = false ∨ kopenChecks s type rsname ringId mode = none
  | .kclose _ => False
  | _ => True

/-! ## One ring -/

theorem countP_update (f : ℕ → Bool) (id n : ℕ) (b : Bool) :
    (List.range n).countP (Function.update f id b) + (if id < n ∧ f id = true then 1 else 0) =
      (List.range n).countP f + (if id < n ∧ b = true then 1 else 0) := by
  induction n with
  | zero => simp
  | succ n ih =>
    rw [List.range_succ, List.countP_append, List.countP_append, List.countP_singleton,
      List.countP_singleton]
    rcases lt_trichotomy id n with hlt | rfl | hgt
    · have hne : n ≠ id := by omega
      simp only [hlt, true_and, Function.update_of_ne hne, show id < n + 1 by omega] at ih ⊢
      omega
    · simp only [lt_irrefl, false_and, if_false, Function.update_self, show id < id + 1 by omega,
        true_and] at ih ⊢
      omega
    · have hne : n ≠ id := by omega
      simp only [show ¬ id < n by omega, show ¬ id < n + 1 by omega, false_and, if_false,
        Function.update_of_ne hne] at ih ⊢
      omega

namespace Ring

/-- What undoes `take`. -/
def give (ring : Ring) (role : Role) (id : ℕ) : Ring := (ring.clear role id).drop role

variable {ring : Ring} {role role' : Role} {id id' : ℕ}

theorem take_allocated : (ring.take role id).allocated role' id' = true ↔
    ring.allocated role' id' = true ∨ role = role' ∧ id = id' := by
  unfold take
  by_cases hr : role' = role
  · subst hr
    by_cases hi : id' = id
    · subst hi
      simp
    · simp [Function.update_of_ne hi, Ne.symm hi]
  · simp [Function.update_of_ne hr, Ne.symm hr]

theorem give_allocated : (ring.give role id).allocated role' id' = true ↔
    ring.allocated role' id' = true ∧ ¬ (role = role' ∧ id = id') := by
  unfold give drop clear
  by_cases hr : role' = role
  · subst hr
    by_cases hi : id' = id
    · subst hi
      simp
    · simp [Function.update_of_ne hi, Ne.symm hi]
  · simp [Function.update_of_ne hr, Ne.symm hr]

theorem take_counted {n : ℕ} (hfree : ring.allocated role id = false) (hid : role = role' → id < n)
    (hc : ring.num role' = ring.taken role' n) :
    (ring.take role id).num role' = (ring.take role id).taken role' n := by
  by_cases hr : role' = role
  · subst hr
    have hu := countP_update (ring.allocated role') id n true
    simp only [hfree, Bool.false_eq_true, and_false, if_false, hid rfl, and_self, if_true] at hu
    unfold taken at hc ⊢
    simp only [take, Function.update_self]
    omega
  · simpa [take, taken, Function.update_of_ne hr] using hc

theorem give_counted {n : ℕ} (hset : ring.allocated role id = true) (hid : role = role' → id < n)
    (hc : ring.num role' = ring.taken role' n) :
    (ring.give role id).num role' = (ring.give role id).taken role' n := by
  by_cases hr : role' = role
  · subst hr
    have hu := countP_update (ring.allocated role') id n false
    simp only [hset, hid rfl, and_self, if_true, Bool.false_eq_true, and_false, if_false] at hu
    unfold taken at hc ⊢
    simp only [give, drop, clear, Function.update_self]
    omega
  · simpa [give, drop, clear, taken, Function.update_of_ne hr] using hc

theorem freeId_some {params : Params} (h : ring.freeId params role = some id) :
    id < params.ids role ∧ ring.allocated role id = false := by
  have hmem := List.mem_of_find?_eq_some h
  have hfree := List.find?_some h
  exact ⟨List.mem_range.mp hmem, by simpa using hfree⟩

theorem freeId_first (params : Params) (hid : id < params.ids role)
    (hset : ∀ j, ring.allocated role j = decide (j < id)) : ring.freeId params role = some id := by
  unfold freeId
  rw [List.find?_range_eq_some]
  refine ⟨by simp [hset], List.mem_range.mpr hid, ?_⟩
  intro j hj
  simp [hset, hj]

/-- With the first `m` ids taken the next calls hand out `m`, `m + 1` and so on. -/
theorem takeTimes_range (params : Params) (n m : ℕ) (hm : m + n ≤ params.ids role) (ring : Ring)
    (hset : ∀ j, ring.allocated role j = decide (j < m)) :
    ∃ ring', takeTimes role params n ring = some (List.range' m n, ring') := by
  induction n generalizing m ring with
  | zero => exact ⟨ring, rfl⟩
  | succ n ih =>
    have hf := freeId_first params (by omega) hset
    have hnext : ∀ j, (ring.take role m).allocated role j = decide (j < m + 1) := by
      intro j
      rw [Bool.eq_iff_iff, take_allocated, hset]
      simp only [decide_eq_true_eq, true_and]
      omega
    obtain ⟨ring', h⟩ := ih (m + 1) (by omega) (ring.take role m) hnext
    refine ⟨ring', ?_⟩
    simp only [takeTimes, allocate, hf, Option.map_some, Option.bind_some, h, List.range'_succ]

end Ring

/-! ## The invariant -/

theorem onRings_ring {mode : KringMode} {ringId : ℤ} {f : Ring → Ring} (hid : RingIdOk r mode ringId)
    (k' i : ℕ) : (s.onRings k r ringId f).ring k' i =
      if k = k' ∧ i < r.nrings ∧ (ringId = kringRingIdAll ∨ ringId = i) then f (s.ring k' i)
      else s.ring k' i := by
  unfold State.onRings
  by_cases hall : ringId = kringRingIdAll
  · simp only [hall, if_true, true_or, and_true, State.mapRings]
    by_cases hk : k = k'
    · subst hk
      simp
    · simp [hk, Function.update_of_ne (Ne.symm hk)]
  · have hin := hid.one (.inl hall)
    simp only [hall, if_false, false_or, State.setRing]
    by_cases hk : k = k'
    · subst hk
      by_cases hi : ringId = i
      · have hi' : i = ringId.toNat := by omega
        subst hi'
        simp [hin]
      · have hi' : i ≠ ringId.toNat := by omega
        simp [hi, hi']
    · simp [hk, Function.update_of_ne (Ne.symm hk)]

/-- `Accounted` in the form the steps keep. -/
structure Inv (s : State) : Prop where
  valid : Valid s
  counted : ∀ {k r i} role, s.head[k]? = some r → i < r.nrings →
    (s.ring k i).num role = (s.ring k i).taken role (r.params.ids role)
  flag : ∀ {k r i} role id, s.head[k]? = some r → i < r.nrings →
    ((s.ring k i).allocated role id = true ↔ ∃ hd, s.Holds hd role k i id)
  apart : ∀ {k r i role id hd hd'}, s.head[k]? = some r → i < r.nrings →
    s.Holds hd role k i id → s.Holds hd' role k i id → hd = hd'
  below : ∀ {k r i role id}, s.head[k]? = some r → i < r.nrings →
    (s.ring k i).allocated role id = true → id < r.params.ids role

theorem Inv.accounted (hI : Inv s) : Accounted s where
  counted := hI.counted
  held := by
    intro k r i id role hr hi _
    rw [hI.flag role id hr hi]
    constructor
    · rintro ⟨hd, hh⟩
      exact ⟨hd, hh, fun hd' hh' => hI.apart hr hi hh' hh⟩
    · rintro ⟨hd, hh, -⟩
      exact ⟨hd, hh⟩
  reusable := by
    intro hclosed k r i role hr hi
    have hclear : ∀ j, (s.ring k i).allocated role j = decide (j < 0) := by
      intro j
      have hno : ¬ (s.ring k i).allocated role j = true := by
        rw [hI.flag role j hr hi]
        rintro ⟨hd, c, hc, -⟩
        rw [hclosed hd] at hc
        cases hc
      simpa using hno
    obtain ⟨ring, h⟩ := Ring.takeTimes_range r.params (r.params.ids role) 0 (by omega) (s.ring k i) hclear
    exact ⟨ring, by rw [h, List.range_eq_range']⟩

theorem Inv.init : Inv {} where
  valid := Valid.init
  counted := fun _ hr => by cases hr
  flag := fun _ _ hr => by cases hr
  apart := fun hr => by cases hr
  below := fun hr => by cases hr

/-- Steps that change neither the rings nor what the handles have. -/
theorem Inv.same (hI : Inv s) (hv : Valid s') (hhead : s'.head = s.head) (hring : s'.ring = s.ring)
    (hclaim : s'.claim = s.claim) : Inv s' where
  valid := hv
  counted := by rw [hhead, hring]; exact hI.counted
  flag := by
    unfold State.Holds
    rw [hhead, hring, hclaim]
    exact hI.flag
  apart := by
    unfold State.Holds
    rw [hhead, hclaim]
    exact hI.apart
  below := by rw [hhead, hring]; exact hI.below

/-- A handle that had nothing takes an id that was free on all the rings it names. -/
theorem Inv.acquire (hd : Handle) (c : Claim) {mode : KringMode} (hI : Inv s) (hv : Valid s')
    (hr : s.head[c.set]? = some r) (hok : RingIdOk r mode c.ringId) (hnone : s.claim hd = none)
    (hid : c.id < r.params.ids c.role)
    (hfree : ∀ i, i < r.nrings → c.ringId = kringRingIdAll ∨ c.ringId = i →
      (s.ring c.set i).allocated c.role c.id = false)
    (hhead : s'.head = s.head)
    (hring : s'.ring = (s.onRings c.set r c.ringId fun ring => ring.take c.role c.id).ring)
    (hclaim : s'.claim = Function.update s.claim hd (some c)) : Inv s' := by
  have hholds : ∀ hd' role k i id, s'.Holds hd' role k i id ↔
      hd' = hd ∧ c.Covers role k i id ∨ s.Holds hd' role k i id := by
    intro hd' role k i id
    unfold State.Holds
    rw [hclaim]
    by_cases he : hd' = hd
    · subst he
      simp [hnone]
    · simp [he]
  have hflag : ∀ {k r' i} role id, s.head[k]? = some r' → i < r'.nrings →
      ((s'.ring k i).allocated role id = true ↔
        (s.ring k i).allocated role id = true ∨ c.Covers role k i id) := by
    intro k r' i role id hr' hi
    rw [hring, onRings_ring hok]
    by_cases hk : c.set = k
    · subst hk
      obtain rfl : r = r' := Option.some.inj (hr.symm.trans hr')
      by_cases hon : c.ringId = kringRingIdAll ∨ c.ringId = i
      · rw [if_pos ⟨rfl, hi, hon⟩, Ring.take_allocated]
        simp [Claim.Covers, hon]
      · rw [if_neg (fun h => hon h.2.2)]
        simp [Claim.Covers, hon]
    · rw [if_neg (fun h => hk h.1)]
      simp [Claim.Covers, hk]
  -- an id that the new claim covers belonged to nobody
  have hnobody : ∀ {k r' i role id hd'}, s.head[k]? = some r' → i < r'.nrings →
      c.Covers role k i id → ¬ s.Holds hd' role k i id := by
    rintro k r' i role id hd' hr' hi ⟨rfl, hon, rfl, rfl⟩ hh
    obtain rfl : r = r' := Option.some.inj (hr.symm.trans hr')
    have hset := (hI.flag c.role c.id hr hi).mpr ⟨hd', hh⟩
    rw [hfree i hi hon] at hset
    cases hset
  refine ⟨hv, ?_, ?_, ?_, ?_⟩
  · intro k r' i role hr' hi
    rw [hhead] at hr'
    rw [hring, onRings_ring hok]
    split_ifs with hon
    · obtain ⟨rfl, -, hon⟩ := hon
      obtain rfl : r = r' := Option.some.inj (hr.symm.trans hr')
      exact Ring.take_counted (hfree i hi hon) (fun he => he ▸ hid) (hI.counted role hr hi)
    · exact hI.counted role hr' hi
  · intro k r' i role id hr' hi
    rw [hhead] at hr'
    rw [hflag role id hr' hi, hI.flag role id hr' hi]
    simp only [hholds]
    constructor
    · rintro (⟨hd', hh⟩ | hc)
      · exact ⟨hd', .inr hh⟩
      · exact ⟨hd, .inl ⟨rfl, hc⟩⟩
    · rintro ⟨hd', ⟨-, hc⟩ | hh⟩
      · exact .inr hc
      · exact .inl ⟨hd', hh⟩
  · intro k r' i role id hd1 hd2 hr' hi h1 h2
    rw [hhead] at hr'
    obtain ⟨rfl, hc⟩ | h1 := (hholds _ _ _ _ _).mp h1
    · obtain ⟨rfl, -⟩ | h2 := (hholds _ _ _ _ _).mp h2
      · rfl
      · exact absurd h2 (hnobody hr' hi hc)
    · obtain ⟨rfl, hc⟩ | h2 := (hholds _ _ _ _ _).mp h2
      · exact absurd h1 (hnobody hr' hi hc)
      · exact hI.apart hr' hi h1 h2
  · intro k r' i role id hr' hi hset
    rw [hhead] at hr'
    obtain hset | ⟨rfl, -, rfl, rfl⟩ := (hflag role id hr' hi).mp hset
    · exact hI.below hr' hi hset
    · obtain rfl : r = r' := Option.some.inj (hr.symm.trans hr')
      exact hid

theorem Inv.release (hd : Handle) (c : Claim) {mode : KringMode} (hI : Inv s) (hv : Valid s')
    (hr : s.head[c.set]? = some r) (hok : RingIdOk r mode c.ringId) (hhad : s.claim hd = some c)
    (hhead : s'.head = s.head)
    (hring : s'.ring = (s.onRings c.set r c.ringId fun ring => ring.give c.role c.id).ring)
    (hclaim : s'.claim = Function.update s.claim hd none) : Inv s' := by
  have hholds : ∀ hd' role k i id, s'.Holds hd' role k i id ↔
      hd' ≠ hd ∧ s.Holds hd' role k i id := by
    intro hd' role k i id
    unfold State.Holds
    rw [hclaim]
    by_cases he : hd' = hd
    · subst he
      simp
    · simp [he]
  have hmine : ∀ {i}, i < r.nrings → c.ringId = kringRingIdAll ∨ c.ringId = i →
      (s.ring c.set i).allocated c.role c.id = true := by
    intro i hi hon
    exact (hI.flag c.role c.id hr hi).mpr ⟨hd, c, hhad, rfl, hon, rfl, rfl⟩
  have hflag : ∀ {k r' i} role id, s.head[k]? = some r' → i < r'.nrings →
      ((s'.ring k i).allocated role id = true ↔
        (s.ring k i).allocated role id = true ∧ ¬ c.Covers role k i id) := by
    intro k r' i role id hr' hi
    rw [hring, onRings_ring hok]
    by_cases hk : c.set = k
    · subst hk
      obtain rfl : r = r' := Option.some.inj (hr.symm.trans hr')
      by_cases hon : c.ringId = kringRingIdAll ∨ c.ringId = i
      · rw [if_pos ⟨rfl, hi, hon⟩, Ring.give_allocated]
        simp [Claim.Covers, hon]
      · rw [if_neg (fun h => hon h.2.2)]
        simp [Claim.Covers, hon]
    · rw [if_neg (fun h => hk h.1)]
      simp [Claim.Covers, hk]
  refine ⟨hv, ?_, ?_, ?_, ?_⟩
  · intro k r' i role hr' hi
    rw [hhead] at hr'
    rw [hring, onRings_ring hok]
    split_ifs with hon
    · obtain ⟨rfl, -, hon⟩ := hon
      obtain rfl : r = r' := Option.some.inj (hr.symm.trans hr')
      have hset := hmine hi hon
      exact Ring.give_counted hset (fun he => he ▸ hI.below hr hi hset) (hI.counted role hr hi)
    · exact hI.counted role hr' hi
  · intro k r' i role id hr' hi
    rw [hhead] at hr'
    rw [hflag role id hr' hi, hI.flag role id hr' hi]
    simp only [hholds]
    constructor
    · rintro ⟨⟨hd', hh⟩, hc⟩
      refine ⟨hd', ?_, hh⟩
      rintro rfl
      obtain ⟨c', hc', hcov⟩ := hh
      rw [hhad] at hc'
      cases hc'
      exact hc hcov
    · rintro ⟨hd', hne, hh⟩
      exact ⟨⟨hd', hh⟩, fun hc => hne (hI.apart hr' hi hh ⟨c, hhad, hc⟩)⟩
  · intro k r' i role id hd1 hd2 hr' hi h1 h2
    rw [hhead] at hr'
    exact hI.apart hr' hi ((hholds _ _ _ _ _).mp h1).2 ((hholds _ _ _ _ _).mp h2).2
  · intro k r' i role id hr' hi hset
    rw [hhead] at hr'
    exact hI.below hr' hi ((hflag role id hr' hi).mp hset).1

theorem Inv.alloc (hI : Inv s) (params : Params) (name : List UInt8) (n : ℕ) :
    Inv (kringRingsetAlloc s params name n) := by
  have hold : ∀ {k r'}, (kringRingsetAlloc s params name n).head[k]? = some r' →
      s.head[k]? = some r' ∧ (kringRingsetAlloc s params name n).ring k = s.ring k ∨
      k = s.head.length ∧ (kringRingsetAlloc s params name n).ring k = fun _ => {} := by
    intro k r' hr'
    simp only [kringRingsetAlloc] at hr' ⊢
    rcases lt_trichotomy k s.head.length with hlt | rfl | hgt
    · rw [List.getElem?_append_left hlt] at hr'
      exact .inl ⟨hr', Function.update_of_ne (by omega) _ _⟩
    · exact .inr ⟨rfl, Function.update_self _ _ _⟩
    · rw [List.getElem?_eq_none (by simp; omega)] at hr'
      cases hr'
  have hnew : ∀ {hd role i id}, ¬ s.Holds hd role s.head.length i id := by
    rintro hd role i id ⟨c, hc, hset, -⟩
    cases hd with
    | sock fd =>
      obtain ⟨krs, hk, hc⟩ := Option.bind_eq_some_iff.mp hc
      obtain ⟨k, hp, hc⟩ := Option.bind_eq_some_iff.mp hc
      obtain ⟨mode, -, rfl⟩ := Option.map_eq_some_iff.mp hc
      obtain ⟨r', -, hr', -⟩ := hI.valid.sock hk hp
      have hlt := (List.getElem?_eq_some_iff.mp hr').1
      simp only at hset
      omega
    | kern h =>
      simp only [State.claim, KringKern.claim] at hc
      split_ifs at hc
      obtain ⟨k, hp, hc⟩ := Option.bind_eq_some_iff.mp hc
      obtain ⟨mode, -, rfl⟩ := Option.map_eq_some_iff.mp hc
      obtain ⟨r', hr', -⟩ := hI.valid.kern hp
      have hlt := (List.getElem?_eq_some_iff.mp hr').1
      simp only at hset
      omega
  have hholds : (kringRingsetAlloc s params name n).Holds = s.Holds := rfl
  refine ⟨hI.valid.alloc _ _ _, ?_, ?_, ?_, ?_⟩
  · intro k r' i role hr' hi
    obtain ⟨hr', hring⟩ | ⟨rfl, hring⟩ := hold hr'
    · rw [hring]
      exact hI.counted role hr' hi
    · rw [hring]
      simp [Ring.taken]
  · intro k r' i role id hr' hi
    rw [hholds]
    obtain ⟨hr', hring⟩ | ⟨rfl, hring⟩ := hold hr'
    · rw [hring]
      exact hI.flag role id hr' hi
    · rw [hring]
      simp [hnew]
  · intro k r' i role id hd hd' hr' hi h1 h2
    rw [hholds] at h1 h2
    obtain ⟨hr', -⟩ | ⟨rfl, -⟩ := hold hr'
    · exact hI.apart hr' hi h1 h2
    · exact absurd h1 hnew
  · intro k r' i role id hr' hi hset
    obtain ⟨hr', hring⟩ | ⟨rfl, hring⟩ := hold hr'
    · rw [hring] at hset
      exact hI.below hr' hi hset
    · rw [hring] at hset
      cases hset

/-! ## The operations -/

theorem claim_setSock (new : Option KringSock) :
    (s.setSock fd new).claim = Function.update s.claim (.sock fd) (new.bind KringSock.claim) := by
  funext hd
  cases hd with
  | sock fd' =>
    by_cases he : fd' = fd
    · subst he
      simp [State.claim, State.setSock]
    · have hne : Handle.sock fd' ≠ Handle.sock fd := fun h => he (Handle.sock.inj h)
      simp [State.claim, State.setSock, he]
  | kern h => simp [State.claim, State.setSock]

theorem claim_setKern (new : KringKern) :
    (s.setKern h new).claim = Function.update s.claim (.kern h) new.claim := by
  funext hd
  cases hd with
  | sock fd => simp [State.claim, State.setKern]
  | kern h' =>
    by_cases he : h' = h
    · subst he
      simp [State.claim, State.setKern]
    · have hne : Handle.kern h' ≠ Handle.kern h := fun h => he (Handle.kern.inj h)
      simp [State.claim, State.setKern, he]

theorem claim_onRings {ringId : ℤ} {f : Ring → Ring} : (s.onRings k r ringId f).claim = s.claim := by
  funext hd
  cases hd <;> simp [State.claim]

theorem boundSock_claim (k id : ℕ) (ringId : ℤ) (mode : KringMode) :
    (boundSock k ringId mode id).claim = some ⟨k, ringId, mode.role, id⟩ := by
  cases mode <;> rfl

theorem openedKern_claim (k id : ℕ) (ringId : ℤ) (mode : KringMode) :
    (openedKern k ringId mode id).claim = some ⟨k, ringId, mode.role, id⟩ := by
  cases mode <;> rfl

/-- What the search of `bind` finds is free on every ring the ring id names. -/
theorem freeFor_some {mode : KringMode} {ringId : ℤ} {id : ℕ} (hok : RingIdOk r mode ringId)
    (h : freeFor s k r mode ringId = some id) : id < r.params.ids mode.role ∧
      ∀ i, i < r.nrings → ringId = kringRingIdAll ∨ ringId = i →
        (s.ring k i).allocated mode.role id = false := by
  unfold freeFor at h
  by_cases hall : ringId = kringRingIdAll
  · rw [if_pos hall] at h
    obtain ⟨-, rfl⟩ | hin := hok
    · unfold freeOnAll at h
      refine ⟨List.mem_range.mp (List.mem_of_find?_eq_some h), fun i hi _ => ?_⟩
      have hfree := List.find?_some h
      have hfree := List.all_eq_true.mp hfree i (List.mem_range.mpr hi)
      rw [KringMode.role]
      simpa using hfree
    · rw [hall, kringRingIdAll] at hin
      omega
  · rw [if_neg hall] at h
    obtain ⟨hid, hfree⟩ := Ring.freeId_some h
    refine ⟨hid, fun i _ hon => ?_⟩
    have hi : i = ringId.toNat := by
      rcases hon with hon | hon
      · exact absurd hon hall
      · omega
    rw [hi]
    exact hfree

theorem Inv.kringBind {addr : KringAddr} {addrLen : ℤ} (hI : Inv s) (hs : s.socks fd = some krs)
    (hkept : krs.ringset = none ∨ bindChecks s addr addrLen = none ∨
      ∃ k r mode, bindChecks s addr addrLen = some (k, r, mode) ∧
        freeFor s k r mode addr.ringId = none)
    (hb : kringBind s fd addr addrLen = .ok (ret, s')) : Inv s' := by
  have hv := hI.valid.kringBind hb
  obtain ⟨ret', h, -⟩ | ⟨k, r, mode, id, hc, hf, h⟩ := kringBind_cases s fd addr addrLen
  · rw [h] at hb
    cases hb
    exact hI
  · have hnone : krs.ringset = none := by
      obtain hnone | hc' | ⟨k', r', mode', hc', hf'⟩ := hkept
      · exact hnone
      · rw [hc] at hc'
        cases hc'
      · rw [hc] at hc'
        cases hc'
        rw [hf] at hf'
        cases hf'
    rw [h] at hb
    cases hb
    obtain ⟨hr, hok⟩ := bindChecks_spec hc
    obtain ⟨hid, hfree⟩ := freeFor_some hok hf
    refine hI.acquire (.sock fd) ⟨k, addr.ringId, mode.role, id⟩ hv hr hok ?_ hid hfree ?_ rfl ?_
    · simp [State.claim, hs, KringSock.claim, hnone]
    · simp [State.setSock]
    · rw [claim_setSock, claim_onRings, Option.bind_some, boundSock_claim]

theorem destructed_give {params : Params} {mode : KringMode} (id : ℕ)
    (h : mode = .read → params = .kctrl) :
    destructed params mode id = fun ring => ring.give mode.role id := by
  funext ring
  cases mode with
  | read =>
    cases h rfl
    rfl
  | write => cases params <;> rfl

theorem Inv.kringSockRelease (hI : Inv s) (hs : s.socks fd = some krs)
    (hkept : ∀ r, s.setOf krs.ringset = some r → krs.mode = some .read → r.params = .kctrl)
    (hrel : kringSockRelease s fd krs = .ok (ret, s')) (hv : Valid s') : Inv s' := by
  obtain ⟨k, r, mode, hp, hr, hm, hok, -, rfl⟩ := hI.valid.release hs hrel
  have hread : mode = .read → r.params = .kctrl := by
    rintro rfl
    exact hkept r (setOf_eq.mpr ⟨k, hp, hr⟩) hm
  rw [destructed_give _ hread] at hv ⊢
  refine hI.release (.sock fd) ⟨k, krs.ringId, mode.role, krs.id mode⟩ hv hr hok ?_ ?_ rfl ?_
  · simp [State.claim, hs, KringSock.claim, hp, hm]
  · simp [State.setSock]
  · rw [claim_setSock, claim_onRings, Option.bind_none]

theorem Inv.kringKopen {type : KringType} {rsname : List UInt8} {ringId : ℤ} {mode : KringMode}
    (hI : Inv s) (hkept : (s.kerns h).opened = false ∨ kopenChecks s type rsname ringId mode = none)
    (ho : kringKopen s h type rsname ringId mode = .ok (ret, s')) (hv : Valid s') : Inv s' := by
  obtain ⟨ret', ho', -⟩ | ⟨k, r, hc, ho'⟩ := kringKopen_cases s h type rsname ringId mode
  · rw [ho'] at ho
    cases ho
    exact hI
  · have hclosed : (s.kerns h).opened = false := by
      obtain hclosed | hc' := hkept
      · exact hclosed
      · rw [hc] at hc'
        cases hc'
    have hnone : s.claim (.kern h) = none := by
      simp [State.claim, KringKern.claim, hclosed]
    obtain ⟨hr, h0, h1, -⟩ := kopenChecks_spec hc
    obtain ⟨ret', ho'⟩ | ⟨id, hf, ho'⟩ := ho'
    · rw [ho'] at ho
      cases ho
      refine hI.same hv rfl rfl ?_
      rw [claim_setKern, Function.update_eq_self_iff, hnone]
      simp [KringKern.claim, hclosed]
    · rw [ho'] at ho
      cases ho
      have hne : ringId ≠ kringRingIdAll := by
        rw [kringRingIdAll]
        omega
      obtain ⟨hid, hfree⟩ := Ring.freeId_some hf
      have hok : RingIdOk r mode ringId := .inr ⟨h0, h1⟩
      refine hI.acquire (.kern h) ⟨k, ringId, mode.role, id⟩ hv hr hok hnone hid ?_ rfl ?_ ?_
      · rintro i hi (hon | hon)
        · exact absurd hon hne
        · dsimp only at hon
          have hi' : i = ringId.toNat := by omega
          rw [hi']
          exact hfree
      · simp only [State.onRings, hne, if_false]
        rfl
      · rw [claim_setKern, openedKern_claim]
        rfl

theorem Inv.step {op : Op} (hI : Inv s) (hkept : Kept s op) (hs : step s op = .ok (ret, s')) :
    Inv s' := by
  have hv := hI.valid.step hs
  cases op with
  | addData name n =>
    simp only [Socket.step, kringAddDataStore] at hs
    split_ifs at hs <;> cases hs
    · exact hI
    · exact hI.alloc _ _ _
  | addCmd name =>
    cases hs
    exact hI.alloc _ _ _
  | create fd args =>
    simp only [Socket.step] at hs
    split at hs
    · cases hs
      exact hI
    · next hnone =>
      unfold kdataSockCreate at hs
      split_ifs at hs <;> cases hs
      iterate 4 exact hI
      refine hI.same hv rfl rfl ?_
      rw [claim_setSock, Function.update_eq_self_iff]
      simp [State.claim, hnone, KringSock.claim]
  | bind fd addr addrLen =>
    obtain rfl | ⟨krs, hk, h⟩ := onSock_ok hs
    · exact hI
    · exact hI.kringBind hk (hkept krs hk) h
  | getsockopt fd args =>
    obtain rfl | ⟨krs, -, h⟩ := onSock_ok hs
    · exact hI
    · exact kringGetsockopt_same h ▸ hI
  | mmap fd pgoff =>
    obtain rfl | ⟨krs, -, h⟩ := onSock_ok hs
    · exact hI
    · exact kringSockMmap_same h ▸ hI
  | recvmsg fd avail signal =>
    obtain rfl | ⟨krs, -, h⟩ := onSock_ok hs
    · exact hI
    · exact kringRecvmsg_same h ▸ hI
  | sendmsg fd =>
    obtain rfl | ⟨krs, -, h⟩ := onSock_ok hs
    · exact hI
    · exact kringSendmsg_same h ▸ hI
  | release fd =>
    obtain rfl | ⟨krs, hk, h⟩ := onSock_ok hs
    · exact hI
    · exact hI.kringSockRelease hk (fun r hr hm => (hkept krs r hk hr hm).1) h hv
  | kopen h type rsname ringId mode => exact hI.kringKopen hkept hs hv
  | kclose h => exact hkept.elim

theorem sockets_step {op : Op} (h : sockets.step s op = some s') : ∃ ret, step s op = .ok (ret, s') := by
  simp only [sockets] at h
  cases hs : step s op with
  | error e =>
    rw [hs] at h
    cases h
  | ok x =>
    rw [hs] at h
    cases h
    exact ⟨x.1, rfl⟩

/-- Runs all of whose steps keep the books leave every id with exactly the handle that has it. -/
theorem ids_accounted (s : State) (hr : ReachIf sockets Kept s) : Accounted s := by
  refine (ReachIf.invariant (I := Inv) Inv.init ?_ hr).accounted
  intro s op s' hI hkept hs
  obtain ⟨ret, hs⟩ := sockets_step hs
  exact hI.step hkept hs

/-- A data ringset of one ring, and a socket that binds to it as writer and is released. -/
theorem ids_accounted_writer : ∃ s, ReachIf sockets Kept s ∧ s.head.length = 1 ∧ Accounted s := by
  have h0 : ReachIf sockets Kept sockets.init := .init
  have h1 := h0.next (a := Op.addData [114] 1) trivial rfl
  have h2 := h1.next (a := Op.create 3 ⟨true, true, true, true⟩) trivial rfl
  have h3 := h2.next (a := Op.bind 3 ⟨addrName [114], 0, 2⟩ 40)
    (fun krs hk => Or.inl (by cases hk; rfl)) rfl
  have h4 := h3.next (a := Op.release 3) (fun krs r hk hr hm => by cases hk; cases hm) rfl
  exact ⟨_, h4, rfl, ids_accounted _ h4⟩

/-- The shuttle's data handle: `kring_kclose` lowers the count and leaves the flag set. -/
theorem ids_unaccounted : ∃ s, Reach sockets s ∧ ¬ Accounted s := by
  have hsome : (run sockets {} [.addData [114] 1, .kopen 0 .data [114] 0 .write, .kclose 0]).isSome := by
    rfl
  obtain ⟨s, hs⟩ := Option.isSome_iff_exists.mp hsome
  refine ⟨s, Reach.run .init hs, fun ha => ?_⟩
  have hhead := run_field hs State.head (x := [⟨[114], .kdata, 1⟩]) rfl
  have hnum := run_field hs (fun s => (s.ring 0 0).num .writer) (x := 0) rfl
  have hset := run_field hs (fun s => (s.ring 0 0).taken .writer 6) (x := 1) rfl
  have hc := ha.counted (k := 0) (i := 0) .writer (by rw [hhead]; rfl) Nat.one_pos
  simp only [Params.ids] at hc
  rw [hnum, hset] at hc
  omega

end Netp.Kring.Socket
