import Netp.Tlsproxy.ContextMap
import Mathlib.Data.List.Nodup
import Mathlib.Tactic.Common

/-! # Serial numbers, keys and contexts are used once

Nothing is shared between the two sections of a call but what the first one has taken. So a serial
number, a key and the right to write a host are each in one place at a time, and `Tallied` counts the
places: every number that was handed out is in one certificate or in one call that is making one, and so
on. Every step moves such a thing from one place to another.
-/

namespace Netp.Tlsproxy
open Netp.Lib
set_option autoImplicit false

/-! ## Counting -/

section Counting
variable {α β : Type}

/-- What leaves the count with the old element and comes in with the new one. -/
theorem countP_set_add {l : List α} {i : ℕ} {old : α} (h : l[i]? = some old) (p : α → Bool) (new : α) :
    (l.set i new).countP p + (if p old then 1 else 0) = l.countP p + if p new then 1 else 0 := by
  obtain ⟨hlt, rfl⟩ := List.getElem?_eq_some_iff.mp h
  have hpos : (if p l[i] then 1 else 0) ≤ l.countP p := List.boole_getElem_le_countP hlt
  rw [List.countP_set hlt]
  omega

theorem nodup_map_of_countP [DecidableEq β] {l : List α} {f : α → β}
    (h : ∀ b, (l.countP fun a => f a = b) ≤ 1) : (l.map f).Nodup := by
  rw [List.nodup_iff_count_le_one]
  intro b
  have hb := h b
  rw [List.count_eq_countP, List.countP_map]
  refine Nat.le_trans (Nat.le_of_eq (List.countP_congr fun a _ => ?_)) hb
  simp

end Counting

variable {Host : Type}

/-! ## Where things are -/

def Place.serial? : Place Host → Option ℤ
  | .create useSerial _ _ => some useSerial
  | _ => none

def Place.pkey? : Place Host → Option ℕ
  | .create _ pkey _ => pkey
  | _ => none

/-- The call is the one that writes its host. -/
def Place.storing : Place Host → Bool
  | .create _ _ stores => stores
  | .store _ => true
  | _ => false

/-- The call has taken nothing, or has nothing left to use. -/
def Place.Empty (p : Place Host) : Prop :=
  p.serial? = none ∧ p.pkey? = none ∧ p.storing = false ∧ p.creating = false

theorem Place.start_empty : (Place.start : Place Host).Empty := ⟨rfl, rfl, rfl, rfl⟩

theorem Place.rtn_empty (rtnVal : SslCtx Host) : (Place.rtn rtnVal).Empty := ⟨rfl, rfl, rfl, rfl⟩

namespace Proxies

/-- The number of calls under way of a kind. -/
def tally (s : Proxies Host) (q : Call Host → Bool) : ℕ := s.threads.countP fun c => c.any q

section Fields
variable (s : Proxies Host) (i : ℕ) (c : Option (Call Host))

@[simp] theorem setCall_map : (s.setCall i c).map = s.map := rfl
@[simp] theorem setCall_adders : (s.setCall i c).adders = s.adders := rfl
@[simp] theorem setCall_genrsa : (s.setCall i c).genrsa = s.genrsa := rfl
@[simp] theorem setCall_certs : (s.setCall i c).certs = s.certs := rfl
@[simp] theorem setCall_writes : (s.setCall i c).writes = s.writes := rfl
@[simp] theorem setCall_returns : (s.setCall i c).returns = s.returns := rfl

end Fields

theorem callOf_eq_some {s : Proxies Host} {i : ℕ} {c : Call Host} :
    s.callOf i = some c ↔ s.threads[i]? = some (some c) := by
  rw [callOf, Option.join_eq_some_iff]

theorem tally_move {s t : Proxies Host} {i : ℕ} {old new : Option (Call Host)}
    (h : s.threads[i]? = some old) (ht : t.threads = s.threads.set i new) (q : Call Host → Bool) :
    t.tally q + (if old.any q then 1 else 0) = s.tally q + if new.any q then 1 else 0 := by
  rw [tally, ht]
  exact countP_set_add h (fun c => c.any q) new

theorem tally_call {s t : Proxies Host} {i : ℕ} {old new : Call Host}
    (h : s.threads[i]? = some (some old)) (ht : t.threads = s.threads.set i (some new))
    (q : Call Host → Prop) [DecidablePred q] :
    t.tally (fun c => q c) + (if q old then 1 else 0) =
      s.tally (fun c => q c) + if q new then 1 else 0 := by
  have hmove := tally_move h ht fun c => q c
  simpa only [Option.any_some, decide_eq_true_eq] using hmove

variable [DecidableEq Host]

/-- A number is in one certificate or one call, a key in one of four places, the right to write a host
with one call until it is used. -/
structure Tallied (serial : ℤ) (s : Proxies Host) : Prop where
  serials : ∀ n, (s.certs.countP fun x => x.serial = n) + s.tally (fun c => c.place.serial? = some n) =
    if serial ≤ n ∧ n < s.map.serial then 1 else 0
  keys : ∀ k, s.map.keyList.count k + (s.certs.countP fun x => x.pkey = k) +
    s.tally (fun c => c.place.pkey? = some k) + (s.adders.countP fun a => a.2 = some k) =
    if k < s.genrsa then 1 else 0
  hosts : ∀ h, (s.writes.countP fun w => w.1 = h) +
    s.tally (fun c => c.place.storing = true ∧ c.host = h) = if (s.map.ctxMap h).isSome then 1 else 0
  count : s.map.serial = serial + s.certs.length + s.tally fun c => c.place.creating
  value : ∀ host ctx, s.map.ctxMap host = some (some ctx) ↔ (host, ctx) ∈ s.writes

/-! ## What the steps do -/

section Cases
variable {s t : Proxies Host} {i j : ℕ} {host : Host}

theorem step_call (h : s.step (.call i host) = some t) : s.threads[i]? = some none ∧
    t = s.setCall i (some ⟨host, (s.map.ctxMap host).join, .start⟩) := by
  unfold step at h
  cases hget : s.threads[i]? with
  | none => simp [hget] at h
  | some c =>
    cases c with
    | none => exact ⟨rfl, by simpa [hget] using h.symm⟩
    | some c => simp [hget] at h

theorem step_enter (h : s.step (.enter i) = some t) : ∃ host before,
    s.threads[i]? = some (some ⟨host, before, .start⟩) ∧
      t = ({ s with map := (s.map.enter host).1 } : Proxies Host).setCall i
        (some ⟨host, before, (s.map.enter host).2⟩) := by
  unfold step at h
  cases hcall : s.callOf i with
  | none => simp [hcall] at h
  | some c =>
    obtain ⟨host, before, place⟩ := c
    cases place with
    | start =>
      simp only [hcall, Option.some.injEq] at h
      exact ⟨host, before, callOf_eq_some.mp hcall, h.symm⟩
    | _ => simp [hcall] at h

theorem step_makeCert (h : s.step (.makeCert i) = some t) : ∃ host before useSerial pkey stores,
    s.threads[i]? = some (some ⟨host, before, .create useSerial pkey stores⟩) ∧
      t = (s.makeCert host useSerial pkey).1.setCall i (some ⟨host, before,
        if stores then .store (s.makeCert host useSerial pkey).2
        else .rtn (s.makeCert host useSerial pkey).2⟩) := by
  unfold step at h
  cases hcall : s.callOf i with
  | none => simp [hcall] at h
  | some c =>
    obtain ⟨host, before, place⟩ := c
    cases place with
    | create useSerial pkey stores =>
      simp only [hcall, Option.some.injEq] at h
      exact ⟨host, before, useSerial, pkey, stores, callOf_eq_some.mp hcall, h.symm⟩
    | _ => simp [hcall] at h

theorem step_store (h : s.step (.store i) = some t) : ∃ host before ctx,
    s.threads[i]? = some (some ⟨host, before, .store ctx⟩) ∧
      t = ({ s with map := s.map.store host ctx, writes := s.writes ++ [(host, ctx)] } :
        Proxies Host).setCall i (some ⟨host, before, .rtn ctx⟩) := by
  unfold step at h
  cases hcall : s.callOf i with
  | none => simp [hcall] at h
  | some c =>
    obtain ⟨host, before, place⟩ := c
    cases place with
    | store ctx =>
      simp only [hcall, Option.some.injEq] at h
      exact ⟨host, before, ctx, callOf_eq_some.mp hcall, h.symm⟩
    | _ => simp [hcall] at h

theorem step_rtn (h : s.step (.rtn i) = some t) : ∃ host before rtnVal,
    s.threads[i]? = some (some ⟨host, before, .rtn rtnVal⟩) ∧
      t = ({ s with returns := s.returns ++ [Returned.mk host before rtnVal] } :
        Proxies Host).setCall i none := by
  unfold step at h
  cases hcall : s.callOf i with
  | none => simp [hcall] at h
  | some c =>
    obtain ⟨host, before, place⟩ := c
    cases place with
    | rtn rtnVal =>
      simp only [hcall, Option.some.injEq] at h
      exact ⟨host, before, rtnVal, callOf_eq_some.mp hcall, h.symm⟩
    | _ => simp [hcall] at h

theorem step_genrsa (h : s.step (.genrsa j) = some t) : ∃ n, s.adders[j]? = some (n + 1, none) ∧
    t = { s with adders := s.adders.set j (n, some s.genrsa), genrsa := s.genrsa + 1 } := by
  unfold step at h
  cases hget : s.adders[j]? with
  | none => simp [hget] at h
  | some a =>
    rcases a with ⟨_ | n, _ | pkey⟩
    · simp [hget] at h
    · simp [hget] at h
    · exact ⟨n, rfl, by simpa [hget] using h.symm⟩
    · simp [hget] at h

theorem step_append (h : s.step (.append j) = some t) : ∃ n pkey,
    s.adders[j]? = some (n, some pkey) ∧
      t = { s with
        adders := s.adders.set j (n, none)
        map := { s.map with keyList := s.map.keyList ++ [pkey] } } := by
  unfold step at h
  cases hget : s.adders[j]? with
  | none => simp [hget] at h
  | some a =>
    rcases a with ⟨n, _ | pkey⟩
    · simp [hget] at h
    · exact ⟨n, pkey, rfl, by simpa [hget] using h.symm⟩

end Cases

/-! ## What the steps keep -/

section Keeps
variable {serial : ℤ} {s t : Proxies Host} {i j : ℕ}

theorem Tallied.setCall (hs : s.Tallied serial) {old new : Option (Call Host)}
    (hold : s.threads[i]? = some old) (hempty : ∀ c, old = some c → c.place.Empty)
    (hempty' : ∀ c, new = some c → c.place.Empty) : (s.setCall i new).Tallied serial := by
  have hsame : ∀ q : Call Host → Bool, (∀ c, c.place.Empty → q c = false) →
      (s.setCall i new).tally q = s.tally q := by
    intro q hq
    have hno : ∀ o : Option (Call Host), (∀ c, o = some c → c.place.Empty) → o.any q = false := by
      intro o ho
      cases o with
      | none => rfl
      | some c => exact hq c (ho c rfl)
    have hmove := tally_move (t := s.setCall i new) hold rfl q
    rw [hno old hempty, hno new hempty'] at hmove
    simpa using hmove
  refine ⟨fun n => ?_, fun k => ?_, fun h => ?_, ?_, hs.value⟩
  · rw [hsame _ fun c hc => by simp [hc.1]]
    exact hs.serials n
  · rw [hsame _ fun c hc => by simp [hc.2.1]]
    exact hs.keys k
  · rw [hsame _ fun c hc => by simp [hc.2.2.1]]
    exact hs.hosts h
  · rw [hsame _ fun c hc => hc.2.2.2]
    exact hs.count

/-- The first section, where it takes a number and a key: for a new record, or for one that another
thread is to write. -/
theorem take_tallied (hs : s.Tallied serial) {host : Host} {before : Option (SslCtx Host)}
    (hold : s.threads[i]? = some (some ⟨host, before, .start⟩)) (stores : Bool)
    (hrecord : s.map.ctxMap host = if stores then none else some none)
    (hmap : t.map = (({ s.map with ctxMap := Function.update s.map.ctxMap host (some none) } :
      ContextMap Host).take stores).1)
    (ht : t = { s with
      map := t.map
      threads := s.threads.set i
        (some ⟨host, before, .create s.map.serial s.map.keyList.head? stores⟩) }) :
    t.Tallied serial := by
  have hthreads : t.threads = s.threads.set i
      (some ⟨host, before, .create s.map.serial s.map.keyList.head? stores⟩) := by rw [ht]
  have hcerts : t.certs = s.certs := by rw [ht]
  have hwrites : t.writes = s.writes := by rw [ht]
  have hadders : t.adders = s.adders := by rw [ht]
  have hgenrsa : t.genrsa = s.genrsa := by rw [ht]
  rw [ContextMap.take] at hmap
  refine ⟨fun n => ?_, fun k => ?_, fun h => ?_, ?_, fun h ctx => ?_⟩
  · have hn := hs.serials n
    have hq : t.tally (fun c => c.place.serial? = some n) + 0 =
        s.tally (fun c => c.place.serial? = some n) +
          if some s.map.serial = some n then 1 else 0 :=
      tally_call hold hthreads fun c => c.place.serial? = some n
    have hcount := hs.count
    rw [hcerts, hmap]
    simp only [Option.some.injEq] at hq ⊢
    split_ifs at hn hq ⊢ <;> omega
  · have hk := hs.keys k
    have hq : t.tally (fun c => c.place.pkey? = some k) + 0 =
        s.tally (fun c => c.place.pkey? = some k) +
          if s.map.keyList.head? = some k then 1 else 0 :=
      tally_call hold hthreads fun c => c.place.pkey? = some k
    have hlist : s.map.keyList.tail.count k + (if s.map.keyList.head? = some k then 1 else 0) =
        s.map.keyList.count k := by
      cases s.map.keyList with
      | nil => rfl
      | cons a l => simp [List.count_cons]
    rw [hcerts, hadders, hgenrsa, hmap]
    simp only
    omega
  · have hh := hs.hosts h
    have hq : t.tally (fun c => c.place.storing = true ∧ c.host = h) + 0 =
        s.tally (fun c => c.place.storing = true ∧ c.host = h) +
          if stores = true ∧ host = h then 1 else 0 :=
      tally_call hold hthreads fun c => c.place.storing = true ∧ c.host = h
    have hctx : t.map.ctxMap h = if h = host then some none else s.map.ctxMap h := by
      rw [hmap]
      exact Function.update_apply _ _ _ _
    rw [hwrites, hctx]
    by_cases heq : h = host
    · subst heq
      rw [hrecord] at hh
      cases stores <;> simp only [Bool.false_eq_true, false_and, and_self, if_true, if_false,
        Option.isSome_some, Option.isSome_none] at hh hq ⊢ <;> omega
    · rw [if_neg fun hc => heq hc.2.symm] at hq
      simp only [heq, if_false]
      omega
  · have hq : t.tally (fun c => c.place.creating = true) + 0 =
        s.tally (fun c => c.place.creating = true) + 1 :=
      tally_call hold hthreads fun c => c.place.creating = true
    have hcount := hs.count
    simp only [Bool.decide_eq_true] at hq
    rw [hcerts, hmap]
    simp only
    omega
  · rw [hwrites, hmap, ← hs.value]
    simp only
    by_cases heq : h = host
    · subst heq
      rw [hrecord]
      cases stores <;> simp
    · rw [Function.update_of_ne heq]

omit [DecidableEq Host] in
theorem makeCert_eq (s : Proxies Host) (host : Host) (useSerial : ℤ) (pkey : Option ℕ) :
    s.makeCert host useSerial pkey =
      ({ s with
          genrsa := s.genrsa + if pkey.isNone then 1 else 0
          certs := s.certs ++ [⟨useSerial, pkey.getD s.genrsa, host⟩] },
        ⟨pkey.getD s.genrsa, ⟨useSerial, pkey.getD s.genrsa, host⟩⟩) := by
  cases pkey <;> rfl

theorem makeCert_tallied (hs : s.Tallied serial) {host : Host} {before : Option (SslCtx Host)}
    {useSerial : ℤ} {pkey : Option ℕ} {stores : Bool} {place : Place Host}
    (hold : s.threads[i]? = some (some ⟨host, before, .create useSerial pkey stores⟩))
    (hserial : place.serial? = none) (hpkey : place.pkey? = none) (hstoring : place.storing = stores)
    (hcreating : place.creating = false) :
    ((s.makeCert host useSerial pkey).1.setCall i (some ⟨host, before, place⟩)).Tallied serial := by
  rw [makeCert_eq]
  generalize ht : Proxies.setCall _ i _ = t
  have hmap : t.map = s.map := by rw [← ht]; rfl
  have hcerts : t.certs = s.certs ++ [⟨useSerial, pkey.getD s.genrsa, host⟩] := by rw [← ht]; rfl
  have hwrites : t.writes = s.writes := by rw [← ht]; rfl
  have hadders : t.adders = s.adders := by rw [← ht]; rfl
  have hgenrsa : t.genrsa = s.genrsa + if pkey.isNone then 1 else 0 := by rw [← ht]; rfl
  have hthreads : t.threads = s.threads.set i (some ⟨host, before, place⟩) := by rw [← ht]; rfl
  refine ⟨fun n => ?_, fun k => ?_, fun h => ?_, ?_, fun h ctx => ?_⟩
  · have hn := hs.serials n
    have hq : t.tally (fun c => c.place.serial? = some n) + (if some useSerial = some n then 1 else 0) =
        s.tally (fun c => c.place.serial? = some n) + if place.serial? = some n then 1 else 0 :=
      tally_call hold hthreads fun c => c.place.serial? = some n
    rw [hserial] at hq
    rw [hcerts, hmap, List.countP_append, List.countP_singleton]
    simp only [Option.some.injEq, reduceCtorEq, if_false, decide_eq_true_eq] at hq ⊢
    omega
  · have hk := hs.keys k
    have hq : t.tally (fun c => c.place.pkey? = some k) + (if pkey = some k then 1 else 0) =
        s.tally (fun c => c.place.pkey? = some k) + if place.pkey? = some k then 1 else 0 :=
      tally_call hold hthreads fun c => c.place.pkey? = some k
    rw [hpkey] at hq
    rw [hcerts, hadders, hmap, List.countP_append, List.countP_singleton]
    cases pkey with
    | none =>
      have hnew : t.genrsa = s.genrsa + 1 := hgenrsa
      rw [hnew]
      simp only [reduceCtorEq, if_false, Option.getD_none, decide_eq_true_eq] at hq ⊢
      split_ifs at hk ⊢ <;> omega
    | some p =>
      have hnew : t.genrsa = s.genrsa := hgenrsa
      rw [hnew]
      simp only [reduceCtorEq, if_false, Option.getD_some, decide_eq_true_eq, Option.some.injEq]
        at hq ⊢
      omega
  · have hq : t.tally (fun c => c.place.storing = true ∧ c.host = h) +
          (if stores = true ∧ host = h then 1 else 0) =
        s.tally (fun c => c.place.storing = true ∧ c.host = h) +
          if place.storing = true ∧ host = h then 1 else 0 :=
      tally_call hold hthreads fun c => c.place.storing = true ∧ c.host = h
    rw [hstoring] at hq
    rw [hwrites, hmap, ← hs.hosts h]
    omega
  · have hq : t.tally (fun c => c.place.creating = true) + 1 =
        s.tally (fun c => c.place.creating = true) + if place.creating = true then 1 else 0 :=
      tally_call hold hthreads fun c => c.place.creating = true
    have hcount := hs.count
    rw [hcreating] at hq
    simp only [Bool.decide_eq_true, Bool.false_eq_true, if_false] at hq
    rw [hcerts, hmap, List.length_append, List.length_singleton]
    omega
  · rw [hwrites, hmap]
    exact hs.value h ctx

/-- The one call that may write a host does it, and no call may do it any more. -/
theorem store_tallied (hs : s.Tallied serial) {host : Host} {before : Option (SslCtx Host)}
    {ctx : SslCtx Host} (hold : s.threads[i]? = some (some ⟨host, before, .store ctx⟩)) :
    (({ s with map := s.map.store host ctx, writes := s.writes ++ [(host, ctx)] } :
      Proxies Host).setCall i (some ⟨host, before, .rtn ctx⟩)).Tallied serial := by
  generalize ht : Proxies.setCall _ i _ = t
  have hmap : t.map = s.map.store host ctx := by rw [← ht]; rfl
  have hcerts : t.certs = s.certs := by rw [← ht]; rfl
  have hwrites : t.writes = s.writes ++ [(host, ctx)] := by rw [← ht]; rfl
  have hadders : t.adders = s.adders := by rw [← ht]; rfl
  have hgenrsa : t.genrsa = s.genrsa := by rw [← ht]; rfl
  have hthreads : t.threads = s.threads.set i (some ⟨host, before, .rtn ctx⟩) := by rw [← ht]; rfl
  have hctx : ∀ h, t.map.ctxMap h = if h = host then some (some ctx) else s.map.ctxMap h := by
    intro h
    rw [hmap]
    exact Function.update_apply _ _ _ _
  have hwriter : ∀ h, t.tally (fun c => c.place.storing = true ∧ c.host = h) +
        (if true = true ∧ host = h then 1 else 0) =
      s.tally (fun c => c.place.storing = true ∧ c.host = h) + 0 := fun h =>
    tally_call hold hthreads fun c => c.place.storing = true ∧ c.host = h
  have hfirst : ∀ ctx', (host, ctx') ∉ s.writes := by
    intro ctx' hmem
    have hpos : 0 < s.writes.countP fun w => w.1 = host :=
      List.countP_pos_iff.mpr ⟨_, hmem, by simp⟩
    have hh := hs.hosts host
    have hq := hwriter host
    simp only [and_self, ↓reduceIte] at hq
    split_ifs at hh <;> omega
  refine ⟨fun n => ?_, fun k => ?_, fun h => ?_, ?_, fun h ctx' => ?_⟩
  · have hq : t.tally (fun c => c.place.serial? = some n) + 0 =
        s.tally (fun c => c.place.serial? = some n) + 0 :=
      tally_call hold hthreads fun c => c.place.serial? = some n
    have hn := hs.serials n
    rw [hcerts, hmap]
    exact (congrArg _ hq).trans hn
  · have hq : t.tally (fun c => c.place.pkey? = some k) + 0 =
        s.tally (fun c => c.place.pkey? = some k) + 0 :=
      tally_call hold hthreads fun c => c.place.pkey? = some k
    rw [hcerts, hadders, hmap, hgenrsa, Nat.add_right_cancel hq]
    exact hs.keys k
  · have hh := hs.hosts h
    have hq := hwriter h
    rw [hwrites, hctx, List.countP_append, List.countP_singleton]
    by_cases heq : h = host
    · subst heq
      simp only [and_self, ↓reduceIte, decide_true, Option.isSome_some] at hq ⊢
      split_ifs at hh <;> omega
    · have hne : ¬ host = h := fun hc => heq hc.symm
      simp only [heq, hne, and_false, if_false, decide_false, Bool.false_eq_true] at hq ⊢
      omega
  · have hq : t.tally (fun c => c.place.creating = true) + 0 =
        s.tally (fun c => c.place.creating = true) + 0 :=
      tally_call hold hthreads fun c => c.place.creating = true
    have hcount := hs.count
    simp only [Bool.decide_eq_true] at hq
    rw [hcerts, hmap, Nat.add_right_cancel hq]
    exact hcount
  · rw [hwrites, hctx, List.mem_append, List.mem_singleton, Prod.mk.injEq]
    by_cases heq : h = host
    · subst heq
      simp only [if_true, Option.some.injEq, true_and]
      constructor
      · rintro rfl
        exact .inr rfl
      · rintro (hmem | rfl)
        · exact absurd hmem (hfirst ctx')
        · rfl
    · simp only [heq, if_false, false_and, or_false]
      exact hs.value h ctx'

theorem genrsa_tallied (hs : s.Tallied serial) {n : ℕ} (hold : s.adders[j]? = some (n + 1, none)) :
    ({ s with adders := s.adders.set j (n, some s.genrsa), genrsa := s.genrsa + 1 } :
      Proxies Host).Tallied serial := by
  refine ⟨hs.serials, fun k => ?_, hs.hosts, hs.count, hs.value⟩
  have hk := hs.keys k
  have hq := countP_set_add hold (fun a => a.2 = some k) (n, some s.genrsa)
  change s.map.keyList.count k + (s.certs.countP fun x => x.pkey = k) +
    s.tally (fun c => c.place.pkey? = some k) +
    ((s.adders.set j (n, some s.genrsa)).countP fun a => a.2 = some k) =
      if k < s.genrsa + 1 then 1 else 0
  simp only [reduceCtorEq, decide_false, Bool.false_eq_true, if_false, Option.some.injEq,
    decide_eq_true_eq] at hq
  split_ifs at hk hq ⊢ <;> omega

theorem append_tallied (hs : s.Tallied serial) {n : ℕ} {pkey : ℕ}
    (hold : s.adders[j]? = some (n, some pkey)) :
    ({ s with
      adders := s.adders.set j (n, none)
      map := { s.map with keyList := s.map.keyList ++ [pkey] } } : Proxies Host).Tallied serial := by
  refine ⟨hs.serials, fun k => ?_, hs.hosts, hs.count, hs.value⟩
  have hk := hs.keys k
  have hq := countP_set_add hold (fun a => a.2 = some k) (n, none)
  change (s.map.keyList ++ [pkey]).count k + (s.certs.countP fun x => x.pkey = k) +
    s.tally (fun c => c.place.pkey? = some k) +
    ((s.adders.set j (n, none)).countP fun a => a.2 = some k) = if k < s.genrsa then 1 else 0
  rw [List.count_append, List.count_singleton]
  simp only [reduceCtorEq, decide_false, Bool.false_eq_true, if_false, Option.some.injEq,
    decide_eq_true_eq, beq_iff_eq] at hq ⊢
  omega

theorem enter_tallied (hs : s.Tallied serial) {host : Host} {before : Option (SslCtx Host)}
    (hold : s.threads[i]? = some (some ⟨host, before, .start⟩)) :
    (({ s with map := (s.map.enter host).1 } : Proxies Host).setCall i
      (some ⟨host, before, (s.map.enter host).2⟩)).Tallied serial := by
  cases hrecord : s.map.ctxMap host with
  | none =>
    rw [ContextMap.enter, hrecord]
    exact take_tallied hs hold true hrecord rfl rfl
  | some value =>
    cases value with
    | none =>
      have hself : Function.update s.map.ctxMap host (some none) = s.map.ctxMap := by
        rw [← hrecord, Function.update_eq_self]
      rw [ContextMap.enter, hrecord]
      refine take_tallied hs hold false hrecord ?_ rfl
      simp only [hself]
      rfl
    | some ctx =>
      rw [ContextMap.enter, hrecord]
      refine hs.setCall hold ?_ ?_
      · rintro c hc
        cases hc
        exact Place.start_empty
      · rintro c hc
        cases hc
        exact Place.rtn_empty ctx

theorem step_tallied {a : Action Host} (hs : s.Tallied serial) (h : s.step a = some t) :
    t.Tallied serial := by
  cases a with
  | spawn =>
    obtain rfl : _ = t := Option.some.inj h
    have hsame : ∀ q : Call Host → Bool,
        tally { s with threads := s.threads ++ [none] } q = s.tally q := by
      intro q
      simp [tally, List.countP_append]
    refine ⟨fun n => ?_, fun k => ?_, fun h => ?_, ?_, hs.value⟩ <;> rw [hsame]
    · exact hs.serials n
    · exact hs.keys k
    · exact hs.hosts h
    · exact hs.count
  | call i host =>
    obtain ⟨hold, rfl⟩ := step_call h
    refine hs.setCall hold nofun ?_
    rintro c hc
    cases hc
    exact Place.start_empty
  | enter i =>
    obtain ⟨host, before, hold, rfl⟩ := step_enter h
    exact enter_tallied hs hold
  | makeCert i =>
    obtain ⟨host, before, useSerial, pkey, stores, hold, rfl⟩ := step_makeCert h
    cases stores
    · exact makeCert_tallied hs hold rfl rfl rfl rfl
    · exact makeCert_tallied hs hold rfl rfl rfl rfl
  | store i =>
    obtain ⟨host, before, ctx, hold, rfl⟩ := step_store h
    exact store_tallied hs hold
  | rtn i =>
    obtain ⟨host, before, rtnVal, hold, rfl⟩ := step_rtn h
    have hs' : Tallied serial ({ s with returns := s.returns ++ [Returned.mk host before rtnVal] }) :=
      ⟨hs.serials, hs.keys, hs.hosts, hs.count, hs.value⟩
    refine hs'.setCall hold ?_ nofun
    rintro c hc
    cases hc
    exact Place.rtn_empty rtnVal
  | addKeys amt =>
    obtain rfl : _ = t := Option.some.inj h
    refine ⟨hs.serials, fun k => ?_, hs.hosts, hs.count, hs.value⟩
    have hsame : ((s.adders ++ [(amt.toNat, none)]).countP fun a : ℕ × Option ℕ => a.2 = some k) =
        s.adders.countP fun a => a.2 = some k := by simp [List.countP_append]
    exact (congrArg _ hsame).trans (hs.keys k)
  | genrsa j =>
    obtain ⟨n, hold, rfl⟩ := step_genrsa h
    exact genrsa_tallied hs hold
  | append j =>
    obtain ⟨n, pkey, hold, rfl⟩ := step_append h
    exact append_tallied hs hold

end Keeps

/-! ## Calls behind the write -/

section Served
variable {s t : Proxies Host} {i : ℕ}

/-- A call that found the value of its host when it began has made nothing, and returns this value. -/
structure Served (s : Proxies Host) : Prop where
  calls : ∀ (i : ℕ) (c : Call Host), s.threads[i]? = some (some c) → ∀ ctx, c.before = some ctx →
    (c.host, ctx) ∈ s.writes ∧ (c.place = .start ∨ c.place = .rtn ctx)
  returns : ∀ r ∈ s.returns, ∀ ctx, r.before = some ctx → r.rtnVal = ctx

omit [DecidableEq Host] in
theorem Served.set (hs : s.Served) {new : Option (Call Host)}
    (hthreads : t.threads = s.threads.set i new) (hwrites : s.writes <+: t.writes)
    (hnew : ∀ c, new = some c → ∀ ctx, c.before = some ctx →
      (c.host, ctx) ∈ t.writes ∧ (c.place = .start ∨ c.place = .rtn ctx))
    (hreturns : ∀ r ∈ t.returns, ∀ ctx, r.before = some ctx → r.rtnVal = ctx) : t.Served := by
  refine ⟨fun j c hj => ?_, hreturns⟩
  rw [hthreads, List.getElem?_set] at hj
  split_ifs at hj with hij hlt
  · exact hnew c (Option.some.inj hj)
  · intro ctx hctx
    obtain ⟨hmem, hplace⟩ := hs.calls j c hj ctx hctx
    exact ⟨hwrites.subset hmem, hplace⟩

theorem step_writes {a : Action Host} (h : s.step a = some t) : s.writes <+: t.writes := by
  cases a with
  | spawn =>
    obtain rfl : _ = t := Option.some.inj h
    exact List.prefix_refl _
  | call i host =>
    obtain ⟨-, rfl⟩ := step_call h
    exact List.prefix_refl _
  | enter i =>
    obtain ⟨host, before, -, rfl⟩ := step_enter h
    exact List.prefix_refl _
  | makeCert i =>
    obtain ⟨host, before, useSerial, pkey, stores, -, rfl⟩ := step_makeCert h
    rw [makeCert_eq]
    exact List.prefix_refl _
  | store i =>
    obtain ⟨host, before, ctx, -, rfl⟩ := step_store h
    exact List.prefix_append _ _
  | rtn i =>
    obtain ⟨host, before, rtnVal, -, rfl⟩ := step_rtn h
    exact List.prefix_refl _
  | addKeys amt =>
    obtain rfl : _ = t := Option.some.inj h
    exact List.prefix_refl _
  | genrsa j =>
    obtain ⟨n, -, rfl⟩ := step_genrsa h
    exact List.prefix_refl _
  | append j =>
    obtain ⟨n, pkey, -, rfl⟩ := step_append h
    exact List.prefix_refl _

theorem step_served {serial : ℤ} {a : Action Host} (hm : s.Tallied serial) (hs : s.Served)
    (h : s.step a = some t) : t.Served := by
  have hwrites := step_writes h
  cases a with
  | spawn =>
    obtain rfl : _ = t := Option.some.inj h
    refine ⟨fun j c hj => ?_, hs.returns⟩
    by_cases hlt : j < s.threads.length
    · rw [List.getElem?_append_left hlt] at hj
      exact hs.calls j c hj
    · rw [List.getElem?_append_right (Nat.le_of_not_lt hlt), List.getElem?_singleton] at hj
      split_ifs at hj
      cases hj
  | call i host =>
    obtain ⟨-, rfl⟩ := step_call h
    refine hs.set rfl hwrites ?_ hs.returns
    rintro c hc ctx hctx
    cases hc
    exact ⟨(hm.value host ctx).mp (Option.join_eq_some_iff.mp hctx), .inl rfl⟩
  | enter i =>
    obtain ⟨host, before, hold, rfl⟩ := step_enter h
    refine hs.set rfl hwrites ?_ hs.returns
    rintro c hc ctx hctx
    cases hc
    obtain ⟨hmem, -⟩ := hs.calls i _ hold ctx hctx
    refine ⟨hmem, .inr ?_⟩
    have hrecord := (hm.value host ctx).mpr hmem
    simp only [ContextMap.enter, hrecord]
  | makeCert i =>
    obtain ⟨host, before, useSerial, pkey, stores, hold, rfl⟩ := step_makeCert h
    rw [makeCert_eq] at hwrites ⊢
    refine hs.set rfl hwrites ?_ hs.returns
    rintro c hc ctx hctx
    cases hc
    obtain ⟨-, hplace | hplace⟩ := hs.calls i _ hold ctx hctx <;> cases hplace
  | store i =>
    obtain ⟨host, before, ctx', hold, rfl⟩ := step_store h
    refine hs.set rfl hwrites ?_ hs.returns
    rintro c hc ctx hctx
    cases hc
    obtain ⟨-, hplace | hplace⟩ := hs.calls i _ hold ctx hctx <;> cases hplace
  | rtn i =>
    obtain ⟨host, before, rtnVal, hold, rfl⟩ := step_rtn h
    refine hs.set rfl hwrites nofun ?_
    intro r hr ctx hctx
    rcases List.mem_append.mp hr with hr | hr
    · exact hs.returns r hr ctx hctx
    · cases List.mem_singleton.mp hr
      obtain ⟨-, hplace | hplace⟩ := hs.calls i _ hold ctx hctx
      · cases hplace
      · cases hplace
        rfl
  | addKeys amt =>
    obtain rfl : _ = t := Option.some.inj h
    exact ⟨hs.calls, hs.returns⟩
  | genrsa j =>
    obtain ⟨n, -, rfl⟩ := step_genrsa h
    exact ⟨hs.calls, hs.returns⟩
  | append j =>
    obtain ⟨n, pkey, -, rfl⟩ := step_append h
    exact ⟨hs.calls, hs.returns⟩

end Served

end Proxies

/-! ## Runs -/

section Runs
variable [DecidableEq Host] {serial : ℤ} {s : Proxies Host}

theorem init_tallied : Proxies.Tallied serial (serverCtx Host serial).init := by
  refine ⟨fun n => ?_, fun k => ?_, fun h => rfl, by simp [serverCtx, Proxies.tally], ?_⟩
  · have hno : ¬ (serial ≤ n ∧ n < serial) := by omega
    exact (if_neg hno).symm
  · exact (if_neg (Nat.not_lt_zero k)).symm
  · intro host ctx
    exact iff_of_false nofun List.not_mem_nil

theorem reach_tallied (h : Reach (serverCtx Host serial) s) : s.Tallied serial ∧ s.Served := by
  refine h.invariant (I := fun s => s.Tallied serial ∧ s.Served) ⟨init_tallied, ?_⟩ ?_
  · refine ⟨fun i c hi => ?_, fun _ hr => absurd hr List.not_mem_nil⟩
    simp [serverCtx] at hi
  · rintro s a t ⟨hm, hs⟩ - hstep
    exact ⟨Proxies.step_tallied hm hstep, Proxies.step_served hm hs hstep⟩

theorem Proxies.Tallied.certified (hm : s.Tallied serial) (hs : s.Served) : s.Certified serial where
  serials := by
    refine nodup_map_of_countP fun n => ?_
    have hn := hm.serials n
    split_ifs at hn <;> omega
  keys := by
    refine nodup_map_of_countP fun k => ?_
    have hk := hm.keys k
    split_ifs at hk <;> omega
  once := by
    refine nodup_map_of_countP fun h => ?_
    have hh := hm.hosts h
    split_ifs at hh <;> omega
  value := hm.value
  returned := hs.returns
  count := hm.count

/-- Whatever the calls do, their certificates differ in number and key, a host keeps the one context it
is given, and a call that begins behind this returns it. -/
theorem serverCtx_certified (h : Reach (serverCtx Host serial) s) :
    s.Certified serial ∧
      (∀ i c ctx, s.callOf i = some c → c.before = some ctx →
        (c.place = .start ∧ ∃ t, s.step (.enter i) = some t ∧
          t.callOf i = some { c with place := .rtn ctx }) ∨ c.place = .rtn ctx) ∧
      ∀ as t, run (serverCtx Host serial) s as = some t → ∀ host ctx,
        s.map.ctxMap host = some (some ctx) → t.map.ctxMap host = some (some ctx) := by
  obtain ⟨hm, hs⟩ := reach_tallied h
  refine ⟨hm.certified hs, ?_, ?_⟩
  · intro i c ctx hcall hbefore
    have hget := Proxies.callOf_eq_some.mp hcall
    obtain ⟨hmem, hplace | hplace⟩ := hs.calls i c hget ctx hbefore
    · refine .inl ⟨hplace, ?_⟩
      obtain ⟨host, before, place⟩ := c
      cases hplace
      have hrecord : s.map.enter host = (s.map, .rtn ctx) := by
        rw [ContextMap.enter, (hm.value host ctx).mpr hmem]
      refine ⟨_, by rw [Proxies.step, hcall], ?_⟩
      obtain ⟨hlt, -⟩ := List.getElem?_eq_some_iff.mp hget
      simp only [hrecord]
      exact Proxies.callOf_eq_some.mpr (List.getElem?_set_self hlt)
    · exact .inr hplace
  · intro as t hrun host ctx hrecord
    have hwrites : s.writes <+: t.writes := by
      refine run_rel (R := fun s t => s.writes <+: t.writes) (fun s => List.prefix_refl _) ?_
        Proxies.step_writes hrun
      intro s t u h h'
      exact h.trans h'
    have hlater := (reach_tallied (h.run hrun)).1
    exact (hlater.value host ctx).mpr (hwrites.subset ((hm.value host ctx).mp hrecord))

end Runs

/-- Two threads ask for one host, with one key in the list; both make a certificate, and the thread that
was second does so first. -/
def raceActions : List (Action ℕ) :=
  [.spawn, .spawn, .addKeys 1, .genrsa 0, .append 0, .call 0 7, .call 1 7, .enter 0, .enter 1,
    .makeCert 1, .makeCert 0, .rtn 1, .store 0, .rtn 0, .call 1 7]

theorem serverCtx_certified_race : ∃ s, run (serverCtx ℕ 1) (serverCtx ℕ 1).init raceActions = some s ∧
    s.certs.length = 2 ∧ s.Certified 1 := by
  have hrun : (run (serverCtx ℕ 1) (serverCtx ℕ 1).init raceActions).map (fun s => s.certs.length) =
      some 2 := rfl
  obtain ⟨s, hs, hlength⟩ := Option.map_eq_some_iff.mp hrun
  exact ⟨s, hs, hlength, (serverCtx_certified (Reach.run ReachIf.init hs)).1⟩

end Netp.Tlsproxy
