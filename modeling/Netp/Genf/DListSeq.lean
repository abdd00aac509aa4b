import Mathlib.Tactic.SplitIfs
import Netp.Genf.DList
import Netp.Lib.Splice

/-! # The lists as sequences

`Seqs` has a sequence of elements for each list. An operation is a step of it where `list.h` does not call
its behaviour undefined: a new element is in no list, the one it is put next to is in the list, and a list
is not moved or copied into itself.

In every state each list is a chain in both directions over the elements of its sequence, and the chains
have no element in common, so that an operation leaves the other lists alone (`lists_refine`). A copy is
appended, the header's own text for `operator=` notwithstanding.
-/

namespace Netp.Genf.DLists
open Netp.Lib
set_option autoImplicit false

/-! ## Sequences -/

section Model
variable {ι α ν : Type} [DecidableEq ι] [DecidableEq α]

structure Seqs (ι α ν : Type) where
  seq : ι → List α
  val : α → ν

/-- `ys` behind an element, or in front of all. -/
def putAfter : Option α → List α → List α → Option (List α)
  | none, ys, xs => some (ys ++ xs)
  | some _, _, [] => none
  | some p, ys, x :: xs => if x = p then some (x :: (ys ++ xs)) else (putAfter (some p) ys xs).map (x :: ·)

/-- `ys` before an element, or behind all. -/
def putBefore : Option α → List α → List α → Option (List α)
  | none, ys, xs => some (xs ++ ys)
  | some _, _, [] => none
  | some p, ys, x :: xs => if x = p then some (ys ++ x :: xs) else (putBefore (some p) ys xs).map (x :: ·)

namespace Seqs

/-- In no list. -/
def Free (a : Seqs ι α ν) (p : α) : Prop := ∀ l, p ∉ a.seq l

def set (a : Seqs ι α ν) (l : ι) (xs : List α) : Seqs ι α ν := { a with seq := Function.update a.seq l xs }

/-- The contents of each copy are those of its original. -/
def copyVals (val : α → ν) : List α → List α → α → ν
  | c :: cs, x :: xs => copyVals (Function.update val c (val x)) cs xs
  | _, _ => val

open Classical in
noncomputable def step (a : Seqs ι α ν) : Op ι α → Option (Seqs ι α ν × Out α)
  | .addAfter l prevEl newEl =>
      if a.Free newEl then (putAfter prevEl [newEl] (a.seq l)).map fun xs => (a.set l xs, .done) else none
  | .addBefore l nextEl newEl =>
      if a.Free newEl then (putBefore nextEl [newEl] (a.seq l)).map fun xs => (a.set l xs, .done) else none
  | .append l newEl => if a.Free newEl then some (a.set l (a.seq l ++ [newEl]), .done) else none
  | .prepend l newEl => if a.Free newEl then some (a.set l (newEl :: a.seq l), .done) else none
  | .addAfterList l prevEl dl =>
      if dl ≠ l then (putAfter prevEl (a.seq dl) (a.seq l)).map fun xs => ((a.set l xs).set dl [], .done)
      else none
  | .addBeforeList l nextEl dl =>
      if dl ≠ l then (putBefore nextEl (a.seq dl) (a.seq l)).map fun xs => ((a.set l xs).set dl [], .done)
      else none
  | .appendList l dl => if dl ≠ l then some ((a.set l (a.seq l ++ a.seq dl)).set dl [], .done) else none
  | .prependList l dl => if dl ≠ l then some ((a.set l (a.seq dl ++ a.seq l)).set dl [], .done) else none
  | .detach l el => if el ∈ a.seq l then some (a.set l ((a.seq l).erase el), .el el) else none
  | .detachFirst l => (a.seq l).head?.map fun el => (a.set l (a.seq l).tail, .el el)
  | .detachLast l => (a.seq l).getLast?.map fun el => (a.set l (a.seq l).dropLast, .el el)
  | .transfer l other => if other ≠ l then some ((a.set l (a.seq other)).set other [], .done) else none
  | .abandon l => some (a.set l [], .done)
  | .empty l => some (a.set l [], .els (a.seq l))
  | .assign l other copies =>
      if other ≠ l ∧ copies.Nodup ∧ (∀ c ∈ copies, a.Free c) ∧ copies.length = (a.seq other).length then
        some ({ a.set l (a.seq l ++ copies) with val := copyVals a.val copies (a.seq other) }, .done)
      else none
  | .iterate l => some (a, .els (a.seq l))
  | .iterateBack l => some (a, .els (a.seq l).reverse)
  | .length l => some (a, .len (a.seq l).length)

end Seqs

noncomputable def seqs (val : α → ν) : Machine (Seqs ι α ν) (Op ι α) (Out α) := ⟨⟨fun _ => [], val⟩, Seqs.step⟩

end Model

/-! ## One list -/

section One
variable {α ν : Type} [DecidableEq α] {h h' : Heap α ν} {d e : DList α} {xs as bs ys : List α}
  {first last el : α}

/-- The list is a chain of these elements in both directions. -/
structure Rep (h : Heap α ν) (d : DList α) (xs : List α) : Prop where
  forward : Seg some h.next d.head xs none
  backward : Seg some h.prev d.tail xs.reverse none
  len : d.listLen = xs.length

omit [DecidableEq α] in
theorem Rep.head (hd : Rep h d xs) : d.head = xs.head? := hd.forward.start

omit [DecidableEq α] in
theorem Rep.tail (hd : Rep h d xs) : d.tail = xs.getLast? := by
  rw [hd.backward.start, List.head?_reverse]

/-- The links of other elements, and all contents, are the same. -/
structure Outside (xs : List α) (h h' : Heap α ν) : Prop where
  next : ∀ p ∉ xs, h'.next p = h.next p
  prev : ∀ p ∉ xs, h'.prev p = h.prev p

omit [DecidableEq α] in
theorem Rep.frame (hd : Rep h d xs) (ho : Outside ys h h') (hdisj : xs.Disjoint ys) : Rep h' d xs where
  forward := hd.forward.congr fun p hp => ho.next p (hdisj hp)
  backward := hd.backward.congr fun p hp => ho.prev p (hdisj (List.mem_reverse.1 hp))
  len := hd.len

/-- The list `d` with a chain between `as` and `bs`. -/
def spliced (h : Heap α ν) (d : DList α) (as bs : List α) (first last : α) (n : ℤ) : Heap α ν × DList α :=
  let f := relink (Function.update h.next last bs.head?) d.head as (some first)
  let b := relink (Function.update h.prev first as.getLast?) d.tail bs.reverse (some last)
  (⟨f.1, b.1, h.val⟩, ⟨f.2, b.2, d.listLen + n⟩)

omit [DecidableEq α] in
theorem Rep.next (hd : Rep h d (as ++ el :: bs)) : h.next el = bs.head? := by
  have hrest := (seg_append_null.1 hd.forward).2
  exact hrest.2.start

omit [DecidableEq α] in
theorem Rep.prev (hd : Rep h d (as ++ el :: bs)) : h.prev el = as.getLast? := by
  have hback := hd.backward
  rw [List.reverse_append, List.reverse_cons, List.append_assoc] at hback
  have hrest := (seg_append_null.1 hback).2
  rw [← List.head?_reverse]
  exact hrest.2.start

theorem addAfterList_eq (hd : Rep h d (as ++ bs)) (hhead : e.head = some first) (htail : e.tail = some last)
    (hlen : e.listLen ≠ 0) (hlast : last ∉ as) :
    addAfterList h d as.getLast? e = some (spliced h d as bs first last e.listLen) := by
  rw [addAfterList, if_neg hlen, hhead, htail, Option.bind_some, Option.map_some, spliced]
  rcases List.eq_nil_or_concat as with rfl | ⟨as, p, rfl⟩
  · have hstart := hd.head
    cases bs with
    | nil => simp [relink, Heap.setPrev, Heap.setNext, hstart]
    | cons n bs => simp [relink, Heap.setPrev, Heap.setNext, hstart]
  · rw [List.concat_eq_append] at hd hlast ⊢
    have hne : last ≠ p := fun hp => hlast (by simp [hp])
    rw [List.append_assoc, List.singleton_append] at hd
    have hnext := hd.next
    cases bs with
    | nil => simp [relink, Heap.setPrev, Heap.setNext, hnext, Function.update_of_ne hne]
    | cons n bs => simp [relink, Heap.setPrev, Heap.setNext, hnext, Function.update_of_ne hne]

theorem addBeforeList_eq (hd : Rep h d (as ++ bs)) (hhead : e.head = some first) (htail : e.tail = some last)
    (hlen : e.listLen ≠ 0) (hfirst : first ∉ bs) :
    addBeforeList h d bs.head? e = some (spliced h d as bs first last e.listLen) := by
  rw [addBeforeList, if_neg hlen, hhead, htail, Option.bind_some, Option.map_some, spliced]
  cases bs with
  | nil =>
    have hend := hd.tail
    rw [List.append_nil] at hend
    rcases List.eq_nil_or_concat as with rfl | ⟨as, p, rfl⟩
    · simp [relink, Heap.setPrev, Heap.setNext, hend]
    · simp [relink, Heap.setPrev, Heap.setNext, hend]
  | cons n bs =>
    have hne : first ≠ n := fun hn => hfirst (by simp [hn])
    have hprev := hd.prev
    rcases List.eq_nil_or_concat as with rfl | ⟨as, p, rfl⟩
    · simp [relink, Heap.setPrev, Heap.setNext, hprev, Function.update_of_ne hne]
    · simp [relink, Heap.setPrev, Heap.setNext, hprev, Function.update_of_ne hne]

/-- An element is inserted as a list of one. -/
theorem addAfter_list (q : Option α) (x : α) :
    addAfterList h d q ⟨some x, some x, 1⟩ = some (addAfter h d q x) := by
  cases q <;> rfl

theorem addBefore_list (q : Option α) (x : α) :
    addBeforeList h d q ⟨some x, some x, 1⟩ = some (addBefore h d q x) := by
  cases q <;> rfl

/-- Links between the elements of `ys`, from `first` to `last`, whatever is behind the two ends. -/
structure Held (h : Heap α ν) (ys : List α) (first last : α) : Prop where
  forward : ∃ w, Seg some h.next (some first) ys w
  backward : ∃ w, Seg some h.prev (some last) ys.reverse w

omit [DecidableEq α] in
theorem Rep.held (hd : Rep h d ys) (hne : ys ≠ []) :
    ∃ first last, d.head = some first ∧ d.tail = some last ∧ d.listLen ≠ 0 ∧ Held h ys first last := by
  obtain ⟨first, hfirst⟩ := Option.isSome_iff_exists.1 (List.isSome_head?.2 hne)
  obtain ⟨last, hlast⟩ := Option.isSome_iff_exists.1 (List.getLast?_isSome.2 hne)
  have hhead : d.head = some first := hd.head.trans hfirst
  have htail : d.tail = some last := hd.tail.trans hlast
  have hlen : d.listLen ≠ 0 := by
    rw [hd.len]
    have := List.length_pos_iff.2 hne
    omega
  exact ⟨first, last, hhead, htail, hlen, ⟨none, hhead ▸ hd.forward⟩, ⟨none, htail ▸ hd.backward⟩⟩

omit [DecidableEq α] in
theorem Held.single (h : Heap α ν) (x : α) : Held h [x] x x := ⟨⟨_, rfl, rfl⟩, ⟨_, rfl, rfl⟩⟩

/-- What is inserted is part of the list afterwards, at its place, and nothing else changes. -/
theorem Rep.spliced (hd : Rep h d (as ++ bs)) (hys : Held h ys first last) (hne : ys ≠ [])
    (hnodup : (as ++ (ys ++ bs)).Nodup) :
    Rep (DLists.spliced h d as bs first last ys.length).1 (DLists.spliced h d as bs first last ys.length).2
        (as ++ (ys ++ bs)) ∧
      Outside (as ++ (ys ++ bs)) h (DLists.spliced h d as bs first last ys.length).1 := by
  obtain ⟨⟨w, hforward⟩, w', hbackward⟩ := hys
  obtain ⟨ys', hlast⟩ : ∃ ys', ys = ys' ++ [last] := by
    rcases List.eq_nil_or_concat ys with rfl | ⟨ys', x, rfl⟩
    · exact absurd rfl hne
    · rw [List.concat_eq_append, List.reverse_append] at hbackward
      exact ⟨ys', by rw [List.concat_eq_append, Option.some.inj hbackward.1]⟩
  obtain ⟨ys'', hfirst⟩ : ∃ ys'', ys = first :: ys'' := by
    cases ys with
    | nil => exact absurd rfl hne
    | cons x ys => exact ⟨ys, by rw [Option.some.inj hforward.1]⟩
  obtain ⟨has, hbs⟩ := seg_append_null.1 hd.forward
  have hback := hd.backward
  rw [List.reverse_append] at hback
  obtain ⟨hbs', has'⟩ := seg_append_null.1 hback
  rw [List.head?_reverse] at hbs' has'
  have hrev : (as ++ (ys ++ bs)).reverse = bs.reverse ++ ((ys''.reverse ++ [first]) ++ as.reverse) := by
    simp [hfirst]
  refine ⟨⟨?_, ?_, ?_⟩, ⟨fun p hp => ?_, fun p hp => ?_⟩⟩
  · rw [hlast] at hforward hnodup ⊢
    exact has.splice hbs hforward hnodup
  · rw [hrev]
    rw [hfirst, List.reverse_cons] at hbackward
    refine hbs'.splice has' hbackward ?_
    rw [← hrev, List.nodup_reverse]
    exact hnodup
  · simp only [DLists.spliced, hd.len, List.length_append]
    omega
  · have hmem : p ∉ as ∧ p ≠ last := by
      rw [hlast] at hp
      simp at hp
      exact ⟨hp.1, hp.2.2.1⟩
    simp only [DLists.spliced, relink_of_notMem hmem.1, Function.update_of_ne hmem.2]
  · have hmem : p ∉ bs.reverse ∧ p ≠ first := by
      rw [hfirst] at hp
      simp at hp
      exact ⟨by simpa using hp.2.2.2, hp.2.1⟩
    simp only [DLists.spliced, relink_of_notMem hmem.1, Function.update_of_ne hmem.2]

/-! ## Detaching -/

theorem detach_eq (hd : Rep h d (as ++ el :: bs)) (hnodup : (as ++ el :: bs).Nodup) : detach h d el =
    (⟨(relink h.next d.head as bs.head?).1, (relink h.prev d.tail bs.reverse as.getLast?).1, h.val⟩,
      ⟨(relink h.next d.head as bs.head?).2, (relink h.prev d.tail bs.reverse as.getLast?).2,
        d.listLen - 1⟩) := by
  have hnext := hd.next
  have hprev := hd.prev
  rcases List.eq_nil_or_concat as with rfl | ⟨as, p, rfl⟩
  · cases bs with
    | nil => simp [DLists.detach, relink, hnext, hprev]
    | cons n bs => simp [DLists.detach, relink, hnext, hprev, Heap.setPrev]
  · have hne : el ≠ p := by
      rintro rfl
      exact List.disjoint_of_nodup_append hnodup (by simp) List.mem_cons_self
    cases bs with
    | nil => simp [DLists.detach, relink, hnext, hprev, Heap.setNext, Function.update_of_ne hne]
    | cons n bs =>
      simp [DLists.detach, relink, hnext, hprev, Heap.setNext, Heap.setPrev, Function.update_of_ne hne]

/-- An element that is detached is gone, and what was on its two sides is linked. -/
theorem Rep.detach (hd : Rep h d (as ++ el :: bs)) (hnodup : (as ++ el :: bs).Nodup) :
    Rep (DLists.detach h d el).1 (DLists.detach h d el).2 (as ++ bs) ∧
      Outside (as ++ bs) h (DLists.detach h d el).1 := by
  have hrev : (as ++ el :: bs).reverse = bs.reverse ++ el :: as.reverse := by simp
  have hforward := hd.forward.cut hnodup
  have hback := hd.backward
  rw [hrev] at hback
  have hbackward := hback.cut (by rw [← hrev, List.nodup_reverse]; exact hnodup)
  rw [hd.next] at hforward
  rw [hd.prev, ← List.reverse_append] at hbackward
  rw [detach_eq hd hnodup]
  refine ⟨⟨hforward, hbackward, ?_⟩, ⟨fun p hp => ?_, fun p hp => ?_⟩⟩
  · simp only [hd.len, List.length_append, List.length_cons]
    omega
  · exact relink_of_notMem fun hmem => hp (List.mem_append_left _ hmem)
  · exact relink_of_notMem fun hmem => hp (List.mem_append_right _ (List.mem_reverse.1 hmem))

/-! ## Iterating -/

omit [DecidableEq α] in
theorem walk_chain {link : α → Option α} {x : Option α} (hx : Seg some link x xs none) {n : ℕ}
    (hn : xs.length ≤ n) : walk link n x = some xs := by
  induction xs generalizing x n with
  | nil =>
    obtain rfl : x = none := hx
    cases n <;> rfl
  | cons p xs ih =>
    obtain ⟨rfl, hx⟩ := hx
    cases n with
    | zero => cases hn
    | succ n =>
      rw [walk, ih hx (Nat.le_of_succ_le_succ hn)]
      rfl

end One

/-! ## All lists -/

section All
variable {ι α ν : Type} [DecidableEq ι] [DecidableEq α] {s : Lists ι α ν} {a : Seqs ι α ν}
  {h : Heap α ν} {d : DList α} {xs as bs ys : List α} {l k : ι}

/-- Each list is its sequence, no element is in two lists or twice in one, and the contents are the same. -/
structure Refines (s : Lists ι α ν) (a : Seqs ι α ν) : Prop where
  rep : ∀ l, Rep s.heap (s.list l) (a.seq l)
  nodup : ∀ l, (a.seq l).Nodup
  disjoint : ∀ l k, l ≠ k → (a.seq l).Disjoint (a.seq k)
  val : s.heap.val = a.val

omit [DecidableEq α] in
/-- A list is changed, by writes to its own elements and to elements of no list. -/
theorem Refines.set (hs : Refines s a) (hrep : Rep h d xs) (hnodup : xs.Nodup)
    (hdisj : ∀ k, k ≠ l → (a.seq k).Disjoint xs) (ho : Outside xs s.heap h) (hval : h.val = s.heap.val) :
    Refines (s.set l (h, d)) (a.set l xs) where
  rep k := by
    by_cases hk : k = l
    · subst hk
      simpa [Lists.set, Seqs.set] using hrep
    · simpa [Lists.set, Seqs.set, Function.update_of_ne hk] using (hs.rep k).frame ho (hdisj k hk)
  nodup k := by
    by_cases hk : k = l
    · subst hk
      simpa [Seqs.set] using hnodup
    · simpa [Seqs.set, Function.update_of_ne hk] using hs.nodup k
  disjoint j k hjk := by
    by_cases hj : j = l
    · subst hj
      simpa [Seqs.set, Function.update_of_ne hjk.symm] using List.disjoint_comm.1 (hdisj k hjk.symm)
    · by_cases hk : k = l
      · subst hk
        simpa [Seqs.set, Function.update_of_ne hj] using hdisj j hj
      · simpa [Seqs.set, Function.update_of_ne hj, Function.update_of_ne hk] using hs.disjoint j k hjk
  val := by
    simpa [Lists.set, Seqs.set, hval] using hs.val

omit [DecidableEq α] in
theorem rep_abandoned (h : Heap α ν) : Rep h abandoned [] := ⟨rfl, rfl, rfl⟩

omit [DecidableEq α] in
theorem Refines.abandon (hs : Refines s a) (l : ι) : Refines (s.abandon l) (a.set l []) :=
  hs.set (rep_abandoned _) List.nodup_nil (fun _ _ => List.disjoint_nil_right _)
    ⟨fun _ _ => rfl, fun _ _ => rfl⟩ rfl

/-- Elements of no list are put into one. -/
theorem Refines.insert (hs : Refines s a) (hxs : a.seq l = as ++ bs) {first last : α}
    (hys : Held s.heap ys first last) (hne : ys ≠ []) (hnodup : ys.Nodup)
    (hnew : ∀ k, (a.seq k).Disjoint ys) :
    Refines (s.set l (spliced s.heap (s.list l) as bs first last ys.length)) (a.set l (as ++ (ys ++ bs))) := by
  have hd := hs.rep l
  have hnl := hs.nodup l
  have hdl := hnew l
  rw [hxs] at hd hnl hdl
  have hperm : (as ++ (ys ++ bs)).Perm ((as ++ bs) ++ ys) := by
    rw [List.append_assoc]
    exact List.Perm.append_left as List.perm_append_comm
  have hnodup' : (as ++ (ys ++ bs)).Nodup := hperm.nodup_iff.2 (List.nodup_append'.2 ⟨hnl, hnodup, hdl⟩)
  obtain ⟨hrep, ho⟩ := hd.spliced hys hne hnodup'
  refine hs.set hrep hnodup' (fun k hk => ?_) ho rfl
  intro p hp hmem
  rcases List.mem_append.1 (hperm.mem_iff.1 hmem) with hmem | hmem
  · exact hs.disjoint k l hk hp (hxs ▸ hmem)
  · exact hnew k hp hmem

theorem putAfter_cases {q : Option α} {zs : List α} (h : putAfter q ys xs = some zs) :
    ∃ as bs, xs = as ++ bs ∧ q = as.getLast? ∧ zs = as ++ (ys ++ bs) := by
  cases q with
  | none =>
    rw [putAfter, Option.some.injEq] at h
    exact ⟨[], xs, rfl, rfl, h.symm⟩
  | some p =>
    induction xs generalizing zs with
    | nil => cases h
    | cons x xs ih =>
      rw [putAfter] at h
      split_ifs at h with hx
      · exact ⟨[x], xs, rfl, by rw [hx]; rfl, (Option.some.inj h).symm⟩
      · obtain ⟨zs, hzs, rfl⟩ := Option.map_eq_some_iff.1 h
        obtain ⟨as, bs, rfl, hq, rfl⟩ := ih hzs
        refine ⟨x :: as, bs, rfl, ?_, rfl⟩
        rw [List.getLast?_cons, ← hq]
        rfl

theorem putBefore_cases {q : Option α} {zs : List α} (h : putBefore q ys xs = some zs) :
    ∃ as bs, xs = as ++ bs ∧ q = bs.head? ∧ zs = as ++ (ys ++ bs) := by
  cases q with
  | none =>
    rw [putBefore, Option.some.injEq] at h
    exact ⟨xs, [], (List.append_nil _).symm, rfl, by rw [← h, List.append_nil]⟩
  | some p =>
    induction xs generalizing zs with
    | nil => cases h
    | cons x xs ih =>
      rw [putBefore] at h
      split_ifs at h with hx
      · exact ⟨[], x :: xs, rfl, by rw [hx]; rfl, (Option.some.inj h).symm⟩
      · obtain ⟨zs, hzs, rfl⟩ := Option.map_eq_some_iff.1 h
        obtain ⟨as, bs, rfl, hq, rfl⟩ := ih hzs
        exact ⟨x :: as, bs, rfl, hq, rfl⟩

/-! ## Elements -/

omit [DecidableEq ι] [DecidableEq α] in
theorem Seqs.Free.disjoint {p : α} (hp : a.Free p) (k : ι) : (a.seq k).Disjoint [p] :=
  List.disjoint_singleton.2 (hp k)

theorem Refines.addAfter (hs : Refines s a) {p : α} (hp : a.Free p) (hxs : a.seq l = as ++ bs) :
    Refines (s.set l (DLists.addAfter s.heap (s.list l) as.getLast? p)) (a.set l (as ++ (p :: bs))) := by
  have hd := hs.rep l
  rw [hxs] at hd
  have hmem : p ∉ as := fun h => hp l (hxs ▸ List.mem_append_left _ h)
  have heq := addAfterList_eq hd (e := ⟨some p, some p, 1⟩) rfl rfl Int.one_ne_zero hmem
  rw [addAfter_list] at heq
  rw [Option.some.inj heq]
  exact hs.insert hxs (Held.single _ p) (List.cons_ne_nil _ _) (List.nodup_singleton p) hp.disjoint

theorem Refines.addBefore (hs : Refines s a) {p : α} (hp : a.Free p) (hxs : a.seq l = as ++ bs) :
    Refines (s.set l (DLists.addBefore s.heap (s.list l) bs.head? p)) (a.set l (as ++ (p :: bs))) := by
  have hd := hs.rep l
  rw [hxs] at hd
  have hmem : p ∉ bs := fun h => hp l (hxs ▸ List.mem_append_right _ h)
  have heq := addBeforeList_eq hd (e := ⟨some p, some p, 1⟩) rfl rfl Int.one_ne_zero hmem
  rw [addBefore_list] at heq
  rw [Option.some.inj heq]
  exact hs.insert hxs (Held.single _ p) (List.cons_ne_nil _ _) (List.nodup_singleton p) hp.disjoint

theorem Refines.detach (hs : Refines s a) {p : α} (hxs : a.seq l = as ++ p :: bs) :
    Refines (s.set l (DLists.detach s.heap (s.list l) p)) (a.set l (as ++ bs)) := by
  have hd := hs.rep l
  have hnodup := hs.nodup l
  rw [hxs] at hd hnodup
  obtain ⟨hrep, ho⟩ := hd.detach hnodup
  have hsub : (as ++ bs).Sublist (as ++ p :: bs) := (List.sublist_cons_self p bs).append_left as
  refine hs.set hrep (hnodup.sublist hsub) (fun k hk => ?_) ho ?_
  · intro x hx hmem
    exact hs.disjoint k l hk hx (hxs ▸ hsub.subset hmem)
  · show (DLists.detach s.heap (s.list l) p).1.val = s.heap.val
    rw [detach_eq hd hnodup]

/-! ## Whole lists -/

omit [DecidableEq α] in
theorem set_abandon (hne : k ≠ l) (r : Heap α ν × DList α) :
    (s.abandon k).set l r = (s.set l r).abandon k := by
  simp only [Lists.abandon, Lists.set, Function.update_comm hne]

omit [DecidableEq α] in
theorem set_nil (hne : k ≠ l) (xs : List α) : (a.set k []).set l xs = (a.set l xs).set k [] := by
  simp only [Seqs.set, Function.update_comm hne]

/-- The elements of another list are put into one; `r` is the result for the two. -/
theorem Refines.insertList (hs : Refines s a) (hne : k ≠ l) (hxs : a.seq l = as ++ bs)
    {r : Option (Heap α ν × DList α)}
    (hr : ∀ first last, (s.list k).head = some first → (s.list k).tail = some last →
      (s.list k).listLen ≠ 0 → last ∉ as → first ∉ bs →
      r = some (spliced s.heap (s.list l) as bs first last (s.list k).listLen))
    (hempty : (s.list k).listLen = 0 → r = some (s.heap, s.list l)) :
    ∃ r', r = some r' ∧ Refines ((s.set l r').abandon k) ((a.set l (as ++ (a.seq k ++ bs))).set k []) := by
  have hk := hs.rep k
  have hs' := hs.abandon k
  have hseq : (a.set k []).seq l = as ++ bs := by
    rw [← hxs]
    exact Function.update_of_ne hne.symm _ _
  have hlist : (s.abandon k).list l = s.list l := Function.update_of_ne hne.symm _ _
  by_cases hnil : a.seq k = []
  · have hlen : (s.list k).listLen = 0 := by
      rw [hk.len, hnil]
      rfl
    refine ⟨_, hempty hlen, ?_⟩
    rw [hnil, List.nil_append, ← set_abandon hne, ← set_nil hne, ← hseq, ← hlist]
    refine hs'.set (hs'.rep l) (hs'.nodup l) (fun j hj => hs'.disjoint j l hj) ⟨fun _ _ => rfl, fun _ _ => rfl⟩ rfl
  · obtain ⟨first, last, hhead, htail, hlen, hheld⟩ := hk.held hnil
    have hnew : ∀ j, ((a.set k []).seq j).Disjoint (a.seq k) := by
      intro j
      by_cases hj : j = k
      · subst hj
        simp [Seqs.set]
      · simpa [Seqs.set, Function.update_of_ne hj] using hs.disjoint j k hj
    have hmem : ∀ p, p ∈ as ∨ p ∈ bs → p ∉ a.seq k := by
      intro p hp hpk
      have hpl : p ∈ a.seq l := by
        rw [hxs]
        exact List.mem_append.2 hp
      exact hs.disjoint k l hne hpk hpl
    have hfirst : first ∈ a.seq k := List.mem_of_mem_head? (hk.head ▸ hhead)
    have hlast : last ∈ a.seq k := List.mem_of_mem_getLast? (hk.tail ▸ htail)
    refine ⟨_, hr first last hhead htail hlen (fun h => hmem _ (.inl h) hlast)
      (fun h => hmem _ (.inr h) hfirst), ?_⟩
    rw [hk.len, ← set_abandon hne, ← set_nil hne, ← hlist]
    exact hs'.insert hseq hheld hnil (hs.nodup k) hnew

/-- The two ways to insert a list. -/
theorem Refines.insertAfter (hs : Refines s a) (hne : k ≠ l) (hxs : a.seq l = as ++ bs) :
    ∃ r, addAfterList s.heap (s.list l) as.getLast? (s.list k) = some r ∧
      Refines ((s.set l r).abandon k) ((a.set l (as ++ (a.seq k ++ bs))).set k []) := by
  have hd := hs.rep l
  rw [hxs] at hd
  exact hs.insertList hne hxs
    (fun first last hhead htail hlen hlast _ => addAfterList_eq hd hhead htail hlen hlast)
    fun hlen => by rw [addAfterList, if_pos hlen]

theorem Refines.insertBefore (hs : Refines s a) (hne : k ≠ l) (hxs : a.seq l = as ++ bs) :
    ∃ r, addBeforeList s.heap (s.list l) bs.head? (s.list k) = some r ∧
      Refines ((s.set l r).abandon k) ((a.set l (as ++ (a.seq k ++ bs))).set k []) := by
  have hd := hs.rep l
  rw [hxs] at hd
  exact hs.insertList hne hxs
    (fun first last hhead htail hlen _ hfirst => addBeforeList_eq hd hhead htail hlen hfirst)
    fun hlen => by rw [addBeforeList, if_pos hlen]

omit [DecidableEq α] in
/-- A list takes the place of another one. -/
theorem Refines.transfer (hs : Refines s a) (hne : k ≠ l) :
    Refines ((s.set l (s.heap, s.list k)).abandon k) ((a.set l (a.seq k)).set k []) := by
  have hs' := hs.abandon k
  rw [← set_abandon hne, ← set_nil hne]
  refine hs'.set (hs.rep k) (hs.nodup k) (fun j hj => ?_) ⟨fun _ _ => rfl, fun _ _ => rfl⟩ rfl
  by_cases hjk : j = k
  · subst hjk
    simp [Seqs.set]
  · simpa [Seqs.set, Function.update_of_ne hjk] using hs.disjoint j k hjk

/-! ## Copies -/

omit [DecidableEq ι] in
/-- Only the contents of an element change. -/
theorem Refines.setVal (hs : Refines s a) (p : α) (v : ν) : Refines
    { s with heap := s.heap.setVal p v } { a with val := Function.update a.val p v } where
  rep l := by
    have ho : Outside [] s.heap (s.heap.setVal p v) := ⟨fun _ _ => rfl, fun _ _ => rfl⟩
    exact (hs.rep l).frame ho (List.disjoint_nil_right _)
  nodup := hs.nodup
  disjoint := hs.disjoint
  val := by
    show Function.update s.heap.val p v = Function.update a.val p v
    rw [hs.val]

/-- The loop appends the copies of what is left of the other list. -/
theorem Refines.copyLoop (hs : Refines s a) (hne : k ≠ l) {copies done rest : List α}
    (hother : a.seq k = done ++ rest) (hnodup : copies.Nodup) (hfree : ∀ c ∈ copies, a.Free c)
    (hlen : copies.length = rest.length) :
    ∃ r, DLists.copyLoop copies s.heap (s.list l) rest.head? = some r ∧
      Refines (s.set l r) { a.set l (a.seq l ++ copies) with val := Seqs.copyVals a.val copies rest } := by
  induction copies generalizing s a done rest with
  | nil =>
    obtain rfl : rest = [] := List.length_eq_zero_iff.1 hlen.symm
    refine ⟨(s.heap, s.list l), rfl, ?_⟩
    simpa [Lists.set, Seqs.set, Seqs.copyVals] using hs
  | cons c cs ih =>
    cases rest with
    | nil => cases hlen
    | cons x xs =>
      obtain ⟨hc, hcs⟩ := List.nodup_cons.1 hnodup
      have hs1 := hs.setVal c (s.heap.val x)
      have hfree1 : Seqs.Free { a with val := Function.update a.val c (s.heap.val x) } c :=
        hfree c List.mem_cons_self
      have hs2 := hs1.addAfter hfree1 (List.append_nil (a.seq l)).symm
      rw [← (hs1.rep l).tail] at hs2
      have hother2 : Function.update a.seq l (a.seq l ++ [c]) k = (done ++ [x]) ++ xs := by
        rw [Function.update_of_ne hne, hother, List.append_assoc]
        rfl
      have hfree2 : ∀ c' ∈ cs, ∀ j, c' ∉ Function.update a.seq l (a.seq l ++ [c]) j := by
        intro c' hc' j
        have hold := hfree c' (List.mem_cons_of_mem _ hc')
        by_cases hj : j = l
        · subst hj
          rw [Function.update_self]
          intro h
          rcases List.mem_append.1 h with h | h
          · exact hold j h
          · exact hc (List.mem_singleton.1 h ▸ hc')
        · rw [Function.update_of_ne hj]
          exact hold j
      obtain ⟨r, hr, hr'⟩ := ih hs2 hother2 hcs hfree2 (Nat.succ.inj hlen)
      have hnext : (DLists.addAfter (s.heap.setVal c (s.heap.val x)) (s.list l) (s.list l).tail c).1.next x =
          xs.head? := by
        have hrep := hs2.rep k
        have hseq : Function.update a.seq l (a.seq l ++ [c]) k = done ++ x :: xs := by
          rw [hother2, List.append_assoc]
          rfl
        simp only [Seqs.set, hseq] at hrep
        exact hrep.next
      refine ⟨r, ?_, ?_⟩
      · rw [← hr]
        simp only [List.head?_cons, DLists.copyLoop, hnext]
        simp [Lists.set]
      · simpa [Lists.set, Seqs.set, Seqs.copyVals, hs.val] using hr'

/-! ## Every operation -/

omit [DecidableEq ι] [DecidableEq α] in
theorem Refines.walk (hs : Refines s a) (l : ι) :
    DLists.walk s.heap.next (s.list l).listLen.toNat (s.list l).head = some (a.seq l) ∧
      DLists.walk s.heap.prev (s.list l).listLen.toNat (s.list l).tail = some (a.seq l).reverse := by
  have hd := hs.rep l
  rw [hd.len, Int.toNat_natCast]
  exact ⟨walk_chain hd.forward (Nat.le_refl _),
    walk_chain hd.backward (Nat.le_of_eq List.length_reverse)⟩

theorem Refines.step (hs : Refines s a) (o : Op ι α) {a' : Seqs ι α ν} {out : Out α}
    (h : a.step o = some (a', out)) : ∃ s', s.step o = some (s', out) ∧ Refines s' a' := by
  cases o with
  | addAfter l q p =>
    simp only [Seqs.step] at h
    split_ifs at h with hp
    obtain ⟨xs, hxs, h⟩ := Option.map_eq_some_iff.1 h
    obtain ⟨rfl, rfl⟩ := Prod.mk.inj h
    obtain ⟨as, bs, hseq, rfl, rfl⟩ := putAfter_cases hxs
    exact ⟨_, rfl, hs.addAfter hp hseq⟩
  | addBefore l q p =>
    simp only [Seqs.step] at h
    split_ifs at h with hp
    obtain ⟨xs, hxs, h⟩ := Option.map_eq_some_iff.1 h
    obtain ⟨rfl, rfl⟩ := Prod.mk.inj h
    obtain ⟨as, bs, hseq, rfl, rfl⟩ := putBefore_cases hxs
    exact ⟨_, rfl, hs.addBefore hp hseq⟩
  | append l p =>
    simp only [Seqs.step] at h
    split_ifs at h with hp
    obtain ⟨rfl, rfl⟩ := Prod.mk.inj (Option.some.inj h)
    refine ⟨_, rfl, ?_⟩
    rw [(hs.rep l).tail]
    exact hs.addAfter hp (List.append_nil _).symm
  | prepend l p =>
    simp only [Seqs.step] at h
    split_ifs at h with hp
    obtain ⟨rfl, rfl⟩ := Prod.mk.inj (Option.some.inj h)
    refine ⟨_, rfl, ?_⟩
    rw [(hs.rep l).head]
    exact hs.addBefore hp (List.nil_append (a.seq l)).symm
  | addAfterList l q k =>
    simp only [Seqs.step] at h
    split_ifs at h with hne
    obtain ⟨xs, hxs, h⟩ := Option.map_eq_some_iff.1 h
    obtain ⟨rfl, rfl⟩ := Prod.mk.inj h
    obtain ⟨as, bs, hseq, rfl, rfl⟩ := putAfter_cases hxs
    obtain ⟨r, hr, hs'⟩ := hs.insertAfter hne hseq
    exact ⟨_, by rw [Lists.step, hr]; rfl, hs'⟩
  | addBeforeList l q k =>
    simp only [Seqs.step] at h
    split_ifs at h with hne
    obtain ⟨xs, hxs, h⟩ := Option.map_eq_some_iff.1 h
    obtain ⟨rfl, rfl⟩ := Prod.mk.inj h
    obtain ⟨as, bs, hseq, rfl, rfl⟩ := putBefore_cases hxs
    obtain ⟨r, hr, hs'⟩ := hs.insertBefore hne hseq
    exact ⟨_, by rw [Lists.step, hr]; rfl, hs'⟩
  | appendList l k =>
    simp only [Seqs.step] at h
    split_ifs at h with hne
    obtain ⟨rfl, rfl⟩ := Prod.mk.inj (Option.some.inj h)
    obtain ⟨r, hr, hs'⟩ := hs.insertAfter hne (List.append_nil (a.seq l)).symm
    rw [← (hs.rep l).tail] at hr
    rw [List.append_nil] at hs'
    exact ⟨_, by rw [Lists.step, hr]; rfl, hs'⟩
  | prependList l k =>
    simp only [Seqs.step] at h
    split_ifs at h with hne
    obtain ⟨rfl, rfl⟩ := Prod.mk.inj (Option.some.inj h)
    obtain ⟨r, hr, hs'⟩ := hs.insertBefore hne (List.nil_append (a.seq l)).symm
    rw [← (hs.rep l).head] at hr
    exact ⟨_, by rw [Lists.step, hr]; rfl, hs'⟩
  | detach l p =>
    simp only [Seqs.step] at h
    split_ifs at h with hp
    obtain ⟨rfl, rfl⟩ := Prod.mk.inj (Option.some.inj h)
    obtain ⟨as, bs, hnot, hseq, herase⟩ := List.exists_erase_eq hp
    rw [herase]
    exact ⟨_, rfl, hs.detach hseq⟩
  | detachFirst l =>
    obtain ⟨p, hp, h⟩ := Option.map_eq_some_iff.1 h
    obtain ⟨rfl, rfl⟩ := Prod.mk.inj h
    obtain ⟨xs, hxs⟩ := List.head?_eq_some_iff.1 hp
    have hs' := hs.detach (show a.seq l = [] ++ p :: xs from hxs)
    refine ⟨_, by rw [Lists.step, (hs.rep l).head, hp]; rfl, ?_⟩
    rw [hxs]
    exact hs'
  | detachLast l =>
    obtain ⟨p, hp, h⟩ := Option.map_eq_some_iff.1 h
    obtain ⟨rfl, rfl⟩ := Prod.mk.inj h
    obtain ⟨xs, hxs⟩ := List.getLast?_eq_some_iff.1 hp
    have hs' := hs.detach (show a.seq l = xs ++ p :: [] from hxs)
    refine ⟨_, by rw [Lists.step, (hs.rep l).tail, hp]; rfl, ?_⟩
    rw [hxs, List.dropLast_concat]
    rw [List.append_nil] at hs'
    exact hs'
  | transfer l k =>
    simp only [Seqs.step] at h
    split_ifs at h with hne
    obtain ⟨rfl, rfl⟩ := Prod.mk.inj (Option.some.inj h)
    exact ⟨_, rfl, hs.transfer hne⟩
  | abandon l =>
    obtain ⟨rfl, rfl⟩ := Prod.mk.inj (Option.some.inj h)
    exact ⟨_, rfl, hs.abandon l⟩
  | empty l =>
    obtain ⟨rfl, rfl⟩ := Prod.mk.inj (Option.some.inj h)
    exact ⟨_, by rw [Lists.step, (hs.walk l).1]; rfl, hs.abandon l⟩
  | assign l k copies =>
    simp only [Seqs.step] at h
    split_ifs at h with hlegal
    obtain ⟨rfl, rfl⟩ := Prod.mk.inj (Option.some.inj h)
    obtain ⟨hne, hnodup, hfree, hlen⟩ := hlegal
    obtain ⟨r, hr, hs'⟩ := hs.copyLoop hne (List.nil_append (a.seq k)).symm hnodup hfree hlen
    rw [← (hs.rep k).head] at hr
    exact ⟨_, by rw [Lists.step, hr]; rfl, hs'⟩
  | iterate l =>
    obtain ⟨rfl, rfl⟩ := Prod.mk.inj (Option.some.inj h)
    exact ⟨_, by rw [Lists.step, (hs.walk l).1]; rfl, hs⟩
  | iterateBack l =>
    obtain ⟨rfl, rfl⟩ := Prod.mk.inj (Option.some.inj h)
    exact ⟨_, by rw [Lists.step, (hs.walk l).2]; rfl, hs⟩
  | length l =>
    obtain ⟨rfl, rfl⟩ := Prod.mk.inj (Option.some.inj h)
    exact ⟨_, by rw [Lists.step, (hs.rep l).len], hs⟩

theorem lists_refinement (h : Heap α ν) :
    Refinement (lists h : Machine (Lists ι α ν) _ _) (seqs h.val) Refines where
  init := ⟨fun _ => rep_abandoned _, fun _ => List.nodup_nil, fun _ _ _ => List.disjoint_nil_left _, rfl⟩
  step _ _ o _ _ hs hstep := hs.step o hstep

/-- As long as no operation has undefined behaviour, the lists give what the sequences give. At the end
every list is its sequence, in both directions, and no two have an element in common. -/
theorem lists_refine (h : Heap α ν) (ops : List (Op ι α)) {outs : List (Out α)}
    (hlegal : (seqs h.val).trace (seqs h.val).init ops = some (a, outs)) :
    ∃ s, (lists h).trace (lists h).init ops = some (s, outs) ∧ s.heap.val = a.val ∧
      ∀ l, walk s.heap.next (s.list l).listLen.toNat (s.list l).head = some (a.seq l) ∧
        walk s.heap.prev (s.list l).listLen.toNat (s.list l).tail = some (a.seq l).reverse ∧
        (s.list l).listLen = (a.seq l).length ∧ (a.seq l).Nodup ∧
        ∀ k, l ≠ k → (a.seq l).Disjoint (a.seq k) := by
  have href := lists_refinement (ι := ι) h
  obtain ⟨s, hs, hr⟩ := href.trace href.init hlegal
  exact ⟨s, hs, hr.val, fun l => ⟨(hr.walk l).1, (hr.walk l).2, (hr.rep l).len, hr.nodup l, hr.disjoint l⟩⟩

end All

/-- Two lists: one is put into the other, copied, and loses an element. -/
def twoLists : List (Op Bool ℕ) :=
  [.append true 10, .append true 11, .prepend false 12, .addAfterList true (some 10) false,
    .assign false true [20, 21, 22], .detach true 11, .iterate true]

def unlinked : Heap ℕ Unit := ⟨fun _ => none, fun _ => none, fun _ => ()⟩

theorem lists_refine_two : ∃ a s outs, (seqs unlinked.val).trace (seqs unlinked.val).init twoLists = some (a, outs) ∧
    (lists unlinked).trace (lists unlinked).init twoLists = some (s, outs) ∧
    walk s.heap.next (s.list true).listLen.toNat (s.list true).head = some (a.seq true) := by
  obtain ⟨a, outs, hlegal⟩ : ∃ a outs,
      (seqs unlinked.val).trace (seqs unlinked.val).init twoLists = some (a, outs) := by
    simp [twoLists, Machine.trace, seqs, Seqs.step, Seqs.Free, Seqs.set, putAfter, Function.update]
  obtain ⟨s, hs, -, hl⟩ := lists_refine unlinked twoLists hlegal
  exact ⟨a, s, outs, hlegal, hs, (hl true).1⟩

end Netp.Genf.DLists
