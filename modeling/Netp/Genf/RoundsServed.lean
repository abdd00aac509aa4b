import Netp.Genf.Rounds

/-! # What the rounds serve

As long as no number is out of the range of an `fd_set`, nothing is closed twice and no process closes its
pipe (`sane`), the loop is never stopped, and every visit is one that was asked for: by the descriptor that
is visited, or, if it has been appended in the round, by one with its number that was closed meanwhile
(`rounds_served`).
-/

namespace Netp.Genf.Rounds
open Netp.Lib
set_option autoImplicit false

/-! ## Descriptors and numbers -/

namespace World

/-- A descriptor that is not closed has its own number open. -/
structure Good (w : World) : Prop where
  fresh : ∀ x ∈ w.selectFdList, x < w.next
  nodup : w.selectFdList.Nodup
  owns : ∀ x < w.next, (w.fds x).closed = false →
    inRange (w.fds x).fd = true ∧ w.table (w.fds x).fd = some (.selectFd x)

/-- What remains: the numbers of descriptors, that they are closed, and the list with more behind it. -/
structure Later (w v : World) : Prop where
  next : w.next ≤ v.next
  fd : ∀ x < w.next, (v.fds x).fd = (w.fds x).fd
  closed : ∀ x < w.next, (w.fds x).closed = true → (v.fds x).closed = true
  list : ∃ added, v.selectFdList = w.selectFdList ++ added ∧ ∀ x ∈ added, w.next ≤ x

end World

/-- The numbers have their places in the sets, nothing is closed twice, and a process does not close its
pipe. -/
def Use.sane (w : World) : Use → Bool
  | .append n closed _ => closed || inRange n
  | .close x => !(w.fds x).closed
  | .bufClose _ => false
  | _ => true

section Use
variable {w v u : World} {f : SelectFd} {x : Id} {n : ℤ}

theorem setFd_self (w : World) (x : Id) (f : SelectFd) : (w.setFd x f).fds x = f := Function.update_self ..

theorem setFd_ne {y : Id} (h : y ≠ x) : (w.setFd x f).fds y = w.fds y := Function.update_of_ne h _ _

theorem push_self (w : World) (f : SelectFd) : (w.push f).fds w.next = f := Function.update_self ..

theorem push_ne (h : x ≠ w.next) : (w.push f).fds x = w.fds x := Function.update_of_ne h _ _

theorem World.Good.inj (h : w.Good) {x y : Id} (hx : x < w.next) (hy : y < w.next)
    (hx' : (w.fds x).closed = false) (hy' : (w.fds y).closed = false)
    (hfd : (w.fds x).fd = (w.fds y).fd) : x = y := by
  have hown := (h.owns x hx hx').2
  rw [hfd, (h.owns y hy hy').2] at hown
  exact (Owner.selectFd.inj (Option.some.inj hown)).symm

theorem World.Later.trans (h : w.Later v) (h' : v.Later u) : w.Later u := by
  obtain ⟨added, hlist, hadded⟩ := h.list
  obtain ⟨added', hlist', hadded'⟩ := h'.list
  have hlt : ∀ x < w.next, x < v.next := fun x hx => hx.trans_le h.next
  refine ⟨h.next.trans h'.next, fun x hx => ?_, fun x hx hclosed => ?_, added ++ added', ?_, ?_⟩
  · rw [h'.fd x (hlt x hx), h.fd x hx]
  · exact h'.closed x (hlt x hx) (h.closed x hx hclosed)
  · rw [hlist', hlist, List.append_assoc]
  · intro x hx
    rcases List.mem_append.1 hx with hx | hx
    · exact hadded x hx
    · exact h.next.trans (hadded' x hx)

/-- A number that no descriptor has open is given another owner. -/
theorem World.Good.setTable (h : w.Good) (o : Option Owner)
    (hn : ∀ x < w.next, (w.fds x).closed = false → (w.fds x).fd ≠ n) : (w.setTable n o).Good where
  fresh := h.fresh
  nodup := h.nodup
  owns x hx hopen := by
    obtain ⟨hrange, htable⟩ := h.owns x hx hopen
    exact ⟨hrange, (Function.update_of_ne (hn x hx hopen) _ _).trans htable⟩

theorem later_setTable (n : ℤ) (o : Option Owner) : w.Later (w.setTable n o) :=
  ⟨le_rfl, fun _ _ => rfl, fun _ _ h => h, [], by simp [World.setTable], by simp⟩

theorem World.Good.setFd (h : w.Good)
    (hf : f.closed = false → inRange f.fd = true ∧ w.table f.fd = some (.selectFd x)) :
    (w.setFd x f).Good where
  fresh := h.fresh
  nodup := h.nodup
  owns y hy hopen := by
    by_cases hyx : y = x
    · rw [hyx, setFd_self] at hopen ⊢
      exact hf hopen
    · rw [setFd_ne hyx] at hopen ⊢
      exact h.owns y hy hopen

theorem later_setFd (hfd : f.fd = (w.fds x).fd) (hclosed : (w.fds x).closed = true → f.closed = true) :
    w.Later (w.setFd x f) := by
  have hcases (y : Id) : (w.setFd x f).fds y = if y = x then f else w.fds y := Function.update_apply ..
  refine ⟨le_rfl, fun y _ => ?_, fun y _ h => ?_, [], by simp [World.setFd], by simp⟩
  · rw [hcases]
    split
    · rename_i hyx
      rw [hfd, hyx]
    · rfl
  · rw [hcases]
    split
    · rename_i hyx
      rw [hyx] at h
      exact hclosed h
    · exact h

theorem World.Good.push (h : w.Good)
    (hf : f.closed = false → inRange f.fd = true ∧ w.table f.fd = some (.selectFd w.next)) :
    (w.push f).Good where
  fresh x hx := by
    rcases List.mem_append.1 hx with hx | hx
    · exact Nat.lt_succ_of_lt (h.fresh x hx)
    · rw [List.mem_singleton.1 hx]
      exact Nat.lt_succ_self _
  nodup := by
    refine List.nodup_append.2 ⟨h.nodup, List.nodup_singleton _, ?_⟩
    rintro x hx y hy rfl
    rw [List.mem_singleton.1 hy] at hx
    exact absurd (h.fresh _ hx) (Nat.lt_irrefl _)
  owns x hx hopen := by
    by_cases hnew : x = w.next
    · rw [hnew, push_self] at hopen ⊢
      exact hf hopen
    · rw [push_ne hnew] at hopen ⊢
      exact h.owns x (Nat.lt_of_le_of_ne (Nat.le_of_lt_succ hx) hnew) hopen

theorem later_push (w : World) (f : SelectFd) : w.Later (w.push f) := by
  have hfds : ∀ x < w.next, (w.push f).fds x = w.fds x := fun x hx => push_ne (Nat.ne_of_lt hx)
  refine ⟨Nat.le_succ _, fun x hx => ?_, fun x hx h => ?_, [w.next], rfl, ?_⟩
  · rw [hfds x hx]
  · rw [hfds x hx]
    exact h
  · intro x hx
    rw [List.mem_singleton.1 hx]

/-- The callbacks keep what they should, and nothing of what there is goes away. -/
theorem use_good (h : w.Good) {u : Use} (hsane : u.sane w = true) (hv : w.use u = some v) :
    v.Good ∧ w.Later v := by
  cases u with
  | append n closed wants =>
    rw [World.use, Option.ite_none_right_eq_some] at hv
    obtain ⟨hn, hv⟩ := hv
    obtain rfl := Option.some.inj hv
    split
    · rename_i hpos
      have hfree : w.table n = none := by
        rcases hn with rfl | hn
        · exact absurd hpos (by decide)
        · exact hn.2
      refine ⟨(h.setTable _ ?_).push fun hopen => ?_, (later_setTable n _).trans (later_push _ _)⟩
      · rintro x hx hopen rfl
        rw [(h.owns x hx hopen).2] at hfree
        cases hfree
      · refine ⟨?_, Function.update_self ..⟩
        have hopen : closed = false := hopen
        rw [Use.sane, hopen, Bool.false_or] at hsane
        exact hsane
    · rename_i hneg
      refine ⟨h.push fun hopen => ?_, later_push _ _⟩
      have hopen : closed = false := hopen
      rw [Use.sane, hopen, Bool.false_or, inRange, decide_eq_true_eq] at hsane
      exact absurd hsane.1 hneg
  | want x wants =>
    rw [World.use, Option.ite_none_right_eq_some] at hv
    obtain ⟨hx, hv⟩ := hv
    obtain rfl := Option.some.inj hv
    exact ⟨h.setFd fun hopen => h.owns x hx hopen, later_setFd rfl id⟩
  | close x =>
    rw [World.use, Option.ite_none_right_eq_some] at hv
    obtain ⟨hx, hv⟩ := hv
    obtain rfl := Option.some.inj hv
    have hopen : (w.fds x).closed = false := by simpa [Use.sane] using hsane
    have hrange := (h.owns x hx hopen).1
    rw [inRange, decide_eq_true_eq] at hrange
    have hsys : w.sysClose (w.fds x).fd = w.setTable (w.fds x).fd none := if_pos hrange.1
    rw [hsys]
    let f : SelectFd := { w.fds x with closed := true }
    refine ⟨?_, (later_setTable (w.fds x).fd none).trans (later_setFd rfl fun _ => rfl)⟩
    have hgood : (w.setFd x f).Good := h.setFd fun hf => absurd hf.symm Bool.false_ne_true
    refine hgood.setTable none ?_
    intro y hy hopen'
    have hyx : y ≠ x := by
      rintro rfl
      rw [setFd_self] at hopen'
      cases hopen'
    rw [setFd_ne hyx] at hopen' ⊢
    exact fun hfd => hyx (h.inj hy hx hopen' hopen hfd)
  | bufClose x => exact absurd hsane Bool.false_ne_true
  | openOther n resolver =>
    rw [World.use, Option.ite_none_right_eq_some] at hv
    obtain ⟨hn, hv⟩ := hv
    obtain rfl := Option.some.inj hv
    refine ⟨h.setTable _ ?_, later_setTable n _⟩
    rintro x hx hopen rfl
    rw [(h.owns x hx hopen).2] at hn
    exact absurd hn.2 (by simp)
  | closeOther n resolver =>
    rw [World.use, Option.ite_none_right_eq_some] at hv
    obtain ⟨hn, hv⟩ := hv
    obtain rfl := Option.some.inj hv
    refine ⟨h.setTable _ ?_, later_setTable n _⟩
    rintro x hx hopen rfl
    rw [(h.owns x hx hopen).2] at hn
    cases resolver <;> exact absurd hn (by simp [other])

/-- Other threads do not touch the numbers of this one. -/
theorem use_elsewhere {u : Use} (he : u.elsewhere = true) (hv : w.use u = some v) (n : ℤ)
    (hn : w.table n ≠ none) (hother : w.table n ≠ some .other) : v.table n = w.table n := by
  cases u with
  | openOther m resolver =>
    rw [World.use, Option.ite_none_right_eq_some] at hv
    obtain ⟨hm, hv⟩ := hv
    obtain rfl := Option.some.inj hv
    refine Function.update_of_ne ?_ _ _
    rintro rfl
    exact hn hm.2
  | closeOther m resolver =>
    rw [World.use, Option.ite_none_right_eq_some] at hv
    obtain ⟨hm, hv⟩ := hv
    obtain rfl := Option.some.inj hv
    have hresolver : resolver = false := by simpa [Use.elsewhere] using he
    refine Function.update_of_ne ?_ _ _
    rintro rfl
    rw [hresolver] at hm
    exact hother hm
  | _ => cases he

end Use

/-! ## Sets -/

section Sets
variable {b : Sets} {f : SelectFd}

theorem mem_ite_insert {p : Bool} {a n : ℤ} {t : Finset ℤ} :
    n ∈ (if p = true then insert a t else t) ↔ n ∈ t ∨ p = true ∧ a = n := by
  split
  · rename_i hp
    rw [Finset.mem_insert, or_comm, eq_comm, and_iff_right hp]
  · rename_i hp
    exact (or_iff_left fun h => hp h.1).symm

theorem add_spec (hrange : inRange f.fd = true) (hread : f.fd ∉ b.readSet) (hwrite : f.fd ∉ b.writeSet)
    (hnfds : ∀ n ∈ b.readSet ∪ b.writeSet, n < b.nfds) :
    ∃ c, b.add f = some c ∧ c.twice = b.twice ∧ (∀ n ∈ c.readSet ∪ c.writeSet, n < c.nfds) ∧
      (∀ n ∈ c.readSet, n ∈ b.readSet ∨ f.wants.wantReadGet = true ∧ f.fd = n) ∧
      ∀ n ∈ c.writeSet, n ∈ b.writeSet ∨ f.wants.wantWriteGet = true ∧ f.fd = n := by
  unfold Sets.add
  simp only [hrange, Bool.not_true, Bool.and_false, Bool.false_eq_true, if_false]
  refine ⟨_, rfl, ?_, ?_, fun n hn => mem_ite_insert.1 hn, fun n hn => mem_ite_insert.1 hn⟩
  · simp [hread, hwrite]
  · intro n hn
    have hcases : n ∈ b.readSet ∪ b.writeSet ∨
        (f.wants.wantReadGet || f.wants.wantWriteGet) = true ∧ f.fd = n := by
      rw [Finset.mem_union, mem_ite_insert, mem_ite_insert] at hn
      rw [Finset.mem_union, Bool.or_eq_true]
      tauto
    simp only [Bool.and_eq_true, decide_eq_true_eq]
    rcases hcases with hold | ⟨hwant, hfd⟩
    · have hlt := hnfds n hold
      split_ifs with hle
      · omega
      · exact hlt
    · split_ifs with hle
      · omega
      · have hlt : ¬b.nfds ≤ f.fd := fun h => hle ⟨hwant, h⟩
        omega

/-- Every descriptor comes into the sets once, where their numbers are different. -/
theorem foldlM_add (fds : Id → SelectFd) {l : List Id} (hrange : ∀ x ∈ l, inRange (fds x).fd = true)
    (hapart : l.Pairwise fun x y => (fds x).fd ≠ (fds y).fd)
    (hnew : ∀ x ∈ l, (fds x).fd ∉ b.readSet ∧ (fds x).fd ∉ b.writeSet)
    (hnfds : ∀ n ∈ b.readSet ∪ b.writeSet, n < b.nfds) :
    ∃ c, l.foldlM (fun b x => b.add (fds x)) b = some c ∧ c.twice = b.twice ∧
      (∀ n ∈ c.readSet ∪ c.writeSet, n < c.nfds) ∧
      (∀ n ∈ c.readSet, n ∈ b.readSet ∨ ∃ y ∈ l, (fds y).wants.wantReadGet = true ∧ (fds y).fd = n) ∧
      ∀ n ∈ c.writeSet, n ∈ b.writeSet ∨ ∃ y ∈ l, (fds y).wants.wantWriteGet = true ∧ (fds y).fd = n := by
  induction l generalizing b with
  | nil => exact ⟨b, rfl, rfl, hnfds, fun n hn => .inl hn, fun n hn => .inl hn⟩
  | cons x l ih =>
    obtain ⟨hx, hl⟩ := List.pairwise_cons.1 hapart
    obtain ⟨hxread, hxwrite⟩ := hnew x List.mem_cons_self
    obtain ⟨c, hc, hctwice, hcnfds, hcread, hcwrite⟩ :=
      add_spec (hrange x List.mem_cons_self) hxread hxwrite hnfds
    have hnew' : ∀ y ∈ l, (fds y).fd ∉ c.readSet ∧ (fds y).fd ∉ c.writeSet := by
      intro y hy
      obtain ⟨hyread, hywrite⟩ := hnew y (List.mem_cons_of_mem _ hy)
      constructor
      · intro hin
        rcases hcread _ hin with hin | ⟨-, heq⟩
        · exact hyread hin
        · exact hx y hy heq
      · intro hin
        rcases hcwrite _ hin with hin | ⟨-, heq⟩
        · exact hywrite hin
        · exact hx y hy heq
    obtain ⟨d, hd, hdtwice, hdnfds, hdread, hdwrite⟩ :=
      ih (fun y hy => hrange y (List.mem_cons_of_mem _ hy)) hl hnew' hcnfds
    refine ⟨d, ?_, hdtwice.trans hctwice, hdnfds, ?_, ?_⟩
    · rw [List.foldlM_cons, hc]
      exact hd
    · intro n hn
      rcases hdread n hn with hn | ⟨y, hy, hwant⟩
      · rcases hcread n hn with hn | hwant
        · exact .inl hn
        · exact .inr ⟨x, List.mem_cons_self, hwant⟩
      · exact .inr ⟨y, List.mem_cons_of_mem _ hy, hwant⟩
    · intro n hn
      rcases hdwrite n hn with hn | ⟨y, hy, hwant⟩
      · rcases hcwrite n hn with hn | hwant
        · exact .inl hn
        · exact .inr ⟨x, List.mem_cons_self, hwant⟩
      · exact .inr ⟨y, List.mem_cons_of_mem _ hy, hwant⟩

end Sets

/-! ## What a state of the loop has -/

namespace State
variable (s : State)

/-- `pselect` has reported the number. -/
def Reported (x : Id) : Prop := (s.world.fds x).fd ∈ s.readyRead ∪ s.readyWrite

/-- If it was reported it has been visited, or was closed before its turn. -/
def Settled (x : Id) : Prop := s.Reported x → x ∈ s.visited ∨ (s.world.fds x).closed = true

/-- The number was in a set because the descriptor asked for it, or, where that has been appended since,
because the resolver did or a descriptor that has been closed since. -/
def Asked (want : Wants → Bool) (ares : Finset ℤ) (x : Id) : Prop :=
  if x ∈ s.built then want (s.asked x).wants = true
  else (s.world.fds x).fd ∈ ares ∨ ∃ y ∈ s.built, want (s.asked y).wants = true ∧
    (s.asked y).fd = (s.world.fds x).fd ∧ (s.world.fds y).closed = true

/-- What the sets of the round come from. -/
structure Round : Prop where
  list : ∃ added, s.world.selectFdList = s.built ++ added
  known : ∀ x ∈ s.built, x < s.world.next ∧ (s.world.fds x).fd = (s.asked x).fd
  apart : ∀ x ∈ s.built, ∀ y ∈ s.built, (s.asked x).fd = (s.asked y).fd → x = y
  ares : ∀ x ∈ s.built, (s.asked x).fd ∉ s.aresRead ∪ s.aresWrite
  read : ∀ n ∈ s.sets.readSet,
    n ∈ s.aresRead ∨ ∃ y ∈ s.built, (s.asked y).wants.wantReadGet = true ∧ (s.asked y).fd = n
  write : ∀ n ∈ s.sets.writeSet,
    n ∈ s.aresWrite ∨ ∃ y ∈ s.built, (s.asked y).wants.wantWriteGet = true ∧ (s.asked y).fd = n
  once : s.sets.twice = false

/-- The sets have what was reported. -/
def Same : Prop := s.sets.readSet = s.readyRead ∧ s.sets.writeSet = s.readyWrite

/-- How far the visits of the round have come. -/
def Progress : Prop :=
  match s.pos with
  | .outside => s.visited.Sublist s.world.selectFdList ∧ ∀ x ∈ s.built, s.Settled x
  | .built => s.visited = [] ∧ s.readyRead = ∅ ∧ s.readyWrite = ∅ ∧
      ∀ n ∈ s.sets.readSet ∪ s.sets.writeSet,
        n < s.sets.nfds ∧ s.world.table n ≠ none ∧ s.world.table n ≠ some .other
  | .handlers ready => s.visited = [] ∧ if ready then s.Same else s.readyRead = ∅ ∧ s.readyWrite = ∅
  | .look i => s.Same ∧ i ≤ s.world.selectFdList.length ∧
      s.visited.Sublist (s.world.selectFdList.take i) ∧ ∀ x ∈ s.world.selectFdList.take i, s.Settled x
  | .visit i readReady writeReady => ∃ x, s.world.selectFdList[i]? = some x ∧ s.Same ∧
      (readReady = true ∨ writeReady = true) ∧
      s.visited.Sublist (s.world.selectFdList.take (i + 1)) ∧
      (∀ x ∈ s.world.selectFdList.take (i + 1), s.Settled x) ∧
      (readReady = true → (s.world.fds x).fd ∈ s.readyRead ∧ s.Asked Wants.wantReadGet s.aresRead x) ∧
      (writeReady = true → (s.world.fds x).fd ∈ s.readyWrite ∧ s.Asked Wants.wantWriteGet s.aresWrite x)
  | .stopped => False

structure Inv : Prop where
  good : s.world.Good
  round : s.Round
  progress : s.Progress

end State

/-! ## The steps -/

section Steps
variable {s s' : State} {v : World}

section Later
variable (hgood : s.world.Good) (hlater : s.world.Later v)
include hlater

theorem settled_later {x : Id} (hx : x < s.world.next) (h : s.Settled x) :
    State.Settled { s with world := v } x := by
  intro hrep
  have hrep' : s.Reported x := by
    rw [State.Reported, ← hlater.fd x hx]
    exact hrep
  rcases h hrep' with hmem | hclosed
  · exact .inl hmem
  · exact .inr (hlater.closed x hx hclosed)

theorem asked_later (hr : s.Round) {want : Wants → Bool} {ares : Finset ℤ} {x : Id} (hx : x < s.world.next)
    (h : s.Asked want ares x) : State.Asked { s with world := v } want ares x := by
  unfold State.Asked at h ⊢
  split at h
  · rename_i hmem
    rw [if_pos hmem]
    exact h
  · rename_i hmem
    rw [if_neg hmem]
    simp only [hlater.fd x hx]
    rcases h with hares | ⟨y, hy, hwant, hfd, hclosed⟩
    · exact .inl hares
    · exact .inr ⟨y, hy, hwant, hfd, hlater.closed y (hr.known y hy).1 hclosed⟩

theorem round_later (hr : s.Round) : State.Round { s with world := v } := by
  obtain ⟨added, hlist⟩ := hr.list
  obtain ⟨added', hlist', -⟩ := hlater.list
  refine ⟨⟨added ++ added', ?_⟩, fun x hx => ?_, hr.apart, hr.ares, hr.read, hr.write, hr.once⟩
  · rw [hlist', hlist, List.append_assoc]
  · obtain ⟨hlt, hfd⟩ := hr.known x hx
    exact ⟨hlt.trans_le hlater.next, (hlater.fd x hlt).trans hfd⟩

include hgood in
theorem progress_later (hr : s.Round) (h : s.Progress) (hbuilt : s.pos = .built → ∀ n,
    s.world.table n ≠ none → s.world.table n ≠ some .other → v.table n = s.world.table n) :
    State.Progress { s with world := v } := by
  obtain ⟨added, hlist, -⟩ := hlater.list
  have htake {i : ℕ} (hi : i ≤ s.world.selectFdList.length) :
      v.selectFdList.take i = s.world.selectFdList.take i := by
    rw [hlist, List.take_append_of_le_length hi]
  have hsettled {l : List Id} (hl : ∀ x ∈ l, x ∈ s.world.selectFdList) (h : ∀ x ∈ l, s.Settled x) :
      ∀ x ∈ l, State.Settled { s with world := v } x :=
    fun x hx => settled_later hlater (hgood.fresh x (hl x hx)) (h x hx)
  unfold State.Progress at h ⊢
  simp only
  cases hpos : s.pos with
  | outside =>
    rw [hpos] at h
    obtain ⟨hsub, hall⟩ := h
    refine ⟨?_, fun x hx => settled_later hlater (hr.known x hx).1 (hall x hx)⟩
    rw [hlist]
    exact hsub.trans (List.sublist_append_left _ _)
  | built =>
    rw [hpos] at h
    obtain ⟨hvisited, hread, hwrite, hnum⟩ := h
    refine ⟨hvisited, hread, hwrite, fun n hn => ?_⟩
    obtain ⟨hlt, hopen, hother⟩ := hnum n hn
    rw [hbuilt hpos n hopen hother]
    exact ⟨hlt, hopen, hother⟩
  | handlers ready =>
    rw [hpos] at h
    exact h
  | look i =>
    rw [hpos] at h
    obtain ⟨hsame, hi, hsub, hall⟩ := h
    simp only [htake hi]
    refine ⟨hsame, ?_, hsub, hsettled (fun x hx => List.mem_of_mem_take hx) hall⟩
    rw [hlist, List.length_append]
    omega
  | visit i readReady writeReady =>
    rw [hpos] at h
    obtain ⟨x, hx, hsame, hready, hsub, hall, hread, hwrite⟩ := h
    obtain ⟨hi, -⟩ := List.getElem?_eq_some_iff.1 hx
    have hlt : x < s.world.next := hgood.fresh x (List.mem_of_getElem? hx)
    simp only [htake (show i + 1 ≤ _ from hi)]
    refine ⟨x, ?_, hsame, hready, hsub, hsettled (fun x hx => List.mem_of_mem_take hx) hall, fun h => ?_,
      fun h => ?_⟩
    · rw [hlist, List.getElem?_append_left hi]
      exact hx
    · obtain ⟨hrep, hask⟩ := hread h
      refine ⟨?_, asked_later hlater hr hlt hask⟩
      rw [hlater.fd x hlt]
      exact hrep
    · obtain ⟨hrep, hask⟩ := hwrite h
      refine ⟨?_, asked_later hlater hr hlt hask⟩
      rw [hlater.fd x hlt]
      exact hrep
  | stopped =>
    rw [hpos] at h
    exact h

end Later

/-- The sets do not depend on how far the visits have come. -/
theorem State.Round.visits (h : s.Round) (pos : Pos) (visited : List Id) :
    State.Round { s with pos := pos, visited := visited } :=
  ⟨h.list, h.known, h.apart, h.ares, h.read, h.write, h.once⟩

theorem detach_good (h : s.world.Good) : s.world.detach.Good where
  fresh x hx := h.fresh x (List.mem_of_mem_filter hx)
  nodup := h.nodup.filter _
  owns := h.owns

/-- The descriptors that the sets are built from, with numbers of their own. -/
theorem build_inv {aresRead aresWrite : Finset ℤ} {nfds : ℤ} (h : s.world.Good)
    (hares : Resolver s.world.table aresRead aresWrite nfds) : (s.build aresRead aresWrite nfds).Inv := by
  have hgood := detach_good h
  have hlive : ∀ x ∈ s.world.detach.selectFdList, x < s.world.next ∧ (s.world.fds x).closed = false := by
    intro x hx
    refine ⟨hgood.fresh x hx, ?_⟩
    simpa using (List.mem_filter.1 hx).2
  have happly : ∀ x ∈ s.world.detach.selectFdList, ∀ y ∈ s.world.detach.selectFdList,
      (s.world.fds x).fd = (s.world.fds y).fd → x = y := fun x hx y hy hfd =>
    h.inj (hlive x hx).1 (hlive y hy).1 (hlive x hx).2 (hlive y hy).2 hfd
  have howner : ∀ x ∈ s.world.detach.selectFdList, (s.world.fds x).fd ∉ aresRead ∪ aresWrite := by
    intro x hx hmem
    have hown := (h.owns x (hlive x hx).1 (hlive x hx).2).2
    rw [(hares _ hmem).1] at hown
    cases hown
  obtain ⟨c, hc, htwice, hnfds, hread, hwrite⟩ := foldlM_add (b := ⟨aresRead, aresWrite, nfds, false⟩)
    s.world.fds (l := s.world.detach.selectFdList)
    (fun x hx => (h.owns x (hlive x hx).1 (hlive x hx).2).1)
    (hgood.nodup.imp_of_mem fun hx hy hne hfd => hne (happly _ hx _ hy hfd))
    (fun x hx => not_or.1 fun hor => howner x hx (Finset.mem_union.2 hor))
    (fun n hn => (hares n hn).2)
  have hbuild : s.build aresRead aresWrite nfds = ⟨s.world.detach, .built, c, s.world.detach.selectFdList,
      s.world.fds, aresRead, aresWrite, ∅, ∅, []⟩ := by
    unfold State.build
    simp only
    rw [show s.world.detach.fds = s.world.fds from rfl, hc]
  rw [hbuild]
  refine ⟨hgood, ⟨⟨[], (List.append_nil _).symm⟩, fun x hx => ⟨(hlive x hx).1, rfl⟩, happly, howner, hread,
    hwrite, htwice⟩, rfl, rfl, rfl, fun n hn => ⟨hnfds n hn, ?_⟩⟩
  have hopen : (∃ y ∈ s.world.detach.selectFdList, (s.world.fds y).fd = n) ∨ n ∈ aresRead ∪ aresWrite := by
    rw [Finset.mem_union]
    rcases Finset.mem_union.1 hn with hn | hn
    · rcases hread n hn with hn | ⟨y, hy, -, hfd⟩
      · exact .inr (.inl hn)
      · exact .inl ⟨y, hy, hfd⟩
    · rcases hwrite n hn with hn | ⟨y, hy, -, hfd⟩
      · exact .inr (.inr hn)
      · exact .inl ⟨y, hy, hfd⟩
  have htable : ∃ o, s.world.table n = some o ∧ o ≠ .other := by
    rcases hopen with ⟨y, hy, rfl⟩ | hn
    · exact ⟨_, (h.owns y (hlive y hy).1 (hlive y hy).2).2, Owner.noConfusion⟩
    · exact ⟨_, (hares n hn).1, Owner.noConfusion⟩
  obtain ⟨o, ho, hother⟩ := htable
  change s.world.table n ≠ none ∧ s.world.table n ≠ some .other
  rw [ho]
  exact ⟨nofun, fun h => hother (Option.some.inj h)⟩

theorem select_eq (read write : Finset ℤ) (h : ∀ n ∈ s.sets.readSet ∪ s.sets.writeSet, n < s.sets.nfds) :
    (s.sets.select read write).readSet = read ∧ (s.sets.select read write).writeSet = write := by
  have hread : s.sets.readSet.filter (fun n => s.sets.nfds ≤ n) = ∅ := by
    refine Finset.filter_eq_empty_iff.2 fun n hn => ?_
    have := h n (Finset.mem_union_left _ hn)
    omega
  have hwrite : s.sets.writeSet.filter (fun n => s.sets.nfds ≤ n) = ∅ := by
    refine Finset.filter_eq_empty_iff.2 fun n hn => ?_
    have := h n (Finset.mem_union_right _ hn)
    omega
  rw [Sets.select, hread, hwrite]
  exact ⟨Finset.union_empty _, Finset.union_empty _⟩

/-- Without reports there is nothing to visit. -/
theorem settled_nil (hread : s.readyRead = ∅) (hwrite : s.readyWrite = ∅) (x : Id) : s.Settled x := by
  intro hrep
  rw [State.Reported, hread, hwrite, Finset.union_empty] at hrep
  exact absurd hrep (Finset.notMem_empty _)

theorem pselect_inv {outcome : Outcome} (h : s.Inv) (hpos : s.pos = .built)
    (hs : s.pselect outcome = some s') : s'.Inv := by
  obtain ⟨hgood, hround, hprogress⟩ := h
  rw [State.Progress, hpos] at hprogress
  obtain ⟨hvisited, hread, hwrite, hnum⟩ := hprogress
  have hlt : ∀ n ∈ s.sets.readSet ∪ s.sets.writeSet, n < s.sets.nfds := fun n hn => (hnum n hn).1
  cases outcome with
  | ready read write =>
    rw [State.pselect, Option.ite_none_right_eq_some] at hs
    obtain ⟨⟨hsubr, hsubw, -⟩, hs⟩ := hs
    obtain rfl := Option.some.inj hs
    obtain ⟨hr, hw⟩ := select_eq read write hlt
    refine ⟨hgood, ⟨hround.list, hround.known, hround.apart, hround.ares, ?_, ?_, hround.once⟩,
      hvisited, hr, hw⟩
    · intro n hn
      rw [hr] at hn
      exact hround.read n (Finset.mem_of_mem_filter n (hsubr hn))
    · intro n hn
      rw [hw] at hn
      exact hround.write n (Finset.mem_of_mem_filter n (hsubw hn))
  | timeout =>
    obtain rfl := Option.some.inj hs
    obtain ⟨hr, hw⟩ := select_eq ∅ ∅ hlt
    refine ⟨hgood, ⟨hround.list, hround.known, hround.apart, hround.ares, ?_, ?_, hround.once⟩,
      hvisited, hread, hwrite⟩
    · intro n hn
      rw [hr] at hn
      exact absurd hn (Finset.notMem_empty _)
    · intro n hn
      rw [hw] at hn
      exact absurd hn (Finset.notMem_empty _)
  | eintr =>
    obtain rfl := Option.some.inj hs
    refine ⟨hgood, hround.visits _ _, ?_, fun x _ => settled_nil hread hwrite x⟩
    rw [State.atPos, hvisited]
    exact List.nil_sublist _
  | eagain =>
    obtain rfl := Option.some.inj hs
    exact ⟨hgood, hround.visits _ _, hvisited, hread, hwrite⟩

theorem not_bad (h : s.Inv) (hpos : s.pos = .built) : ¬s.sets.Bad s.world.table := by
  have hprogress := h.progress
  rw [State.Progress, hpos] at hprogress
  obtain ⟨-, -, -, hnum⟩ := hprogress
  rintro ⟨n, hn, -, hnone⟩
  exact (hnum n hn).2.1 hnone

theorem handled_inv {ready : Bool} (h : s.Inv) (hpos : s.pos = .handlers ready) :
    (s.atPos (if ready then .look 0 else .outside)).Inv := by
  obtain ⟨hgood, hround, hprogress⟩ := h
  rw [State.Progress, hpos] at hprogress
  obtain ⟨hvisited, hready⟩ := hprogress
  refine ⟨hgood, hround.visits _ _, ?_⟩
  cases ready with
  | true =>
    refine ⟨hready, Nat.zero_le _, ?_, fun x hx => absurd hx List.not_mem_nil⟩
    rw [State.atPos, hvisited]
    exact List.nil_sublist _
  | false =>
    obtain ⟨hread, hwrite⟩ := hready
    refine ⟨?_, fun x _ => settled_nil hread hwrite x⟩
    rw [State.atPos, hvisited]
    exact List.nil_sublist _

/-- The number of an open descriptor is in a set for one of the reasons. -/
theorem asked_of_mem {want : Wants → Bool} {ares : Finset ℤ} {x : Id} (hgood : s.world.Good)
    (hround : s.Round) (hx : x ∈ s.world.selectFdList) (hopen : (s.world.fds x).closed = false)
    (hares : ∀ y ∈ s.built, (s.asked y).fd ∉ ares)
    (hmem : (s.world.fds x).fd ∈ ares ∨
      ∃ y ∈ s.built, want (s.asked y).wants = true ∧ (s.asked y).fd = (s.world.fds x).fd) :
    s.Asked want ares x := by
  unfold State.Asked
  split
  · rename_i hbuilt
    have hfd := (hround.known x hbuilt).2
    rcases hmem with hmem | ⟨y, hy, hwant, hyx⟩
    · rw [hfd] at hmem
      exact absurd hmem (hares x hbuilt)
    · rw [hround.apart y hy x hbuilt (hyx.trans hfd)] at hwant
      exact hwant
  · rename_i hbuilt
    refine hmem.imp_right ?_
    rintro ⟨y, hy, hwant, hyx⟩
    refine ⟨y, hy, hwant, hyx, ?_⟩
    obtain ⟨hlt, hfd⟩ := hround.known y hy
    by_contra hnot
    -- else the two would have the number
    have hsame := hgood.inj hlt (hgood.fresh x hx) (Bool.not_eq_true _ ▸ hnot) hopen (hfd.trans hyx)
    exact hbuilt (hsame ▸ hy)

theorem look_inv {i : ℕ} {x : Id} (h : s.Inv) (hpos : s.pos = .look i)
    (hx : s.world.selectFdList[i]? = some x) : (s.look i x).Inv := by
  obtain ⟨hgood, hround, hprogress⟩ := h
  rw [State.Progress, hpos] at hprogress
  obtain ⟨hsame, -, hsub, hall⟩ := hprogress
  obtain ⟨hi, -⟩ := List.getElem?_eq_some_iff.1 hx
  have hmem := List.mem_of_getElem? hx
  have htake : s.world.selectFdList.take (i + 1) = s.world.selectFdList.take i ++ [x] := by
    rw [List.take_add_one, hx]
    rfl
  have hnext (hset : s.Settled x) : (s.atPos (.look (i + 1))).Inv := by
    refine ⟨hgood, hround.visits _ _, hsame, hi, ?_, ?_⟩
    · change s.visited.Sublist (s.world.selectFdList.take (i + 1))
      rw [htake]
      exact hsub.trans (List.sublist_append_left _ _)
    · intro y hy
      change y ∈ s.world.selectFdList.take (i + 1) at hy
      rw [htake] at hy
      rcases List.mem_append.1 hy with hy | hy
      · exact hall y hy
      · rw [List.mem_singleton.1 hy]
        exact hset
  unfold State.look
  simp only
  split
  · rename_i hclosed
    exact hnext fun _ => .inr hclosed
  · rename_i hclosed
    have hopen : (s.world.fds x).closed = false := Bool.not_eq_true _ ▸ hclosed
    rw [(hgood.owns x (hgood.fresh x hmem) hopen).1]
    simp only [Bool.not_true, Bool.false_eq_true, if_false]
    split
    · rename_i hready
      refine ⟨hgood, hround.visits _ _, x, hx, hsame, Bool.or_eq_true_iff.1 hready, ?_, ?_, fun hr => ?_,
        fun hw => ?_⟩
      · simp only [htake]
        exact hsub.append (List.Sublist.refl _)
      · intro y hy hrep
        simp only [htake] at hy
        rcases List.mem_append.1 hy with hy | hy
        · exact (hall y hy hrep).imp_left fun hy => List.mem_append_left _ hy
        · exact .inl (List.mem_append_right _ hy)
      · have hr := of_decide_eq_true hr
        refine ⟨hsame.1 ▸ hr, asked_of_mem (s := s) hgood hround hmem hopen ?_ (hround.read _ hr)⟩
        exact fun y hy hin => hround.ares y hy (Finset.mem_union_left _ hin)
      · have hw := of_decide_eq_true hw
        refine ⟨hsame.2 ▸ hw, asked_of_mem (s := s) hgood hround hmem hopen ?_ (hround.write _ hw)⟩
        exact fun y hy hin => hround.ares y hy (Finset.mem_union_right _ hin)
    · rename_i hnot
      refine hnext fun hrep => absurd ?_ hnot
      rw [State.Reported, ← hsame.1, ← hsame.2, Finset.mem_union] at hrep
      simpa using hrep

theorem look_end_inv {i : ℕ} (h : s.Inv) (hpos : s.pos = .look i)
    (hend : s.world.selectFdList[i]? = none) : (s.atPos .outside).Inv := by
  obtain ⟨hgood, hround, hprogress⟩ := h
  rw [State.Progress, hpos] at hprogress
  obtain ⟨hsame, -, hsub, hall⟩ := hprogress
  rw [List.take_of_length_le (List.getElem?_eq_none_iff.1 hend)] at hsub hall
  obtain ⟨added, hlist⟩ := hround.list
  refine ⟨hgood, hround.visits _ _, hsub, fun x hx => hall x ?_⟩
  rw [hlist]
  exact List.mem_append_left _ hx

theorem leave_inv {i : ℕ} {readReady writeReady : Bool} (h : s.Inv)
    (hpos : s.pos = .visit i readReady writeReady) : (s.atPos (.look (i + 1))).Inv := by
  obtain ⟨hgood, hround, hprogress⟩ := h
  rw [State.Progress, hpos] at hprogress
  obtain ⟨x, hx, hsame, -, hsub, hall, -, -⟩ := hprogress
  obtain ⟨hi, -⟩ := List.getElem?_eq_some_iff.1 hx
  exact ⟨hgood, hround.visits _ _, hsame, hi, hsub, hall⟩

/-- The steps for which the invariant holds. -/
def sane (s : State) : Act → Bool
  | .use u => u.sane s.world
  | _ => true

theorem step_inv {a : Act} (h : s.Inv) (hsane : sane s a = true) (hs : step s a = some s') : s'.Inv := by
  cases a with
  | use u =>
    rw [step, Option.ite_none_right_eq_some] at hs
    obtain ⟨hcalls, hs⟩ := hs
    obtain ⟨v, hv, rfl⟩ := Option.map_eq_some_iff.1 hs
    obtain ⟨hgood, hlater⟩ := use_good h.good hsane hv
    refine ⟨hgood, round_later hlater h.round, progress_later h.good hlater h.round h.progress ?_⟩
    intro hpos
    rw [hpos] at hcalls
    exact use_elsewhere hcalls hv
  | build aresRead aresWrite nfds =>
    rw [step, Option.ite_none_right_eq_some] at hs
    obtain ⟨⟨-, hares⟩, hs⟩ := hs
    obtain rfl := Option.some.inj hs
    exact build_inv h.good hares
  | pselect outcome =>
    rw [step, Option.ite_none_right_eq_some] at hs
    obtain ⟨hpos, hs⟩ := hs
    rw [if_neg (not_bad h hpos)] at hs
    exact pselect_inv h hpos hs
  | handled =>
    simp only [step] at hs
    split at hs
    · rename_i ready hpos
      obtain rfl := Option.some.inj hs
      exact handled_inv h hpos
    · cases hs
  | look =>
    simp only [step] at hs
    split at hs
    · rename_i i hpos
      split at hs
      · rename_i hend
        obtain rfl := Option.some.inj hs
        exact look_end_inv h hpos hend
      · rename_i x hx
        obtain rfl := Option.some.inj hs
        exact look_inv h hpos hx
    · cases hs
  | leave =>
    simp only [step] at hs
    split at hs
    · rename_i i readReady writeReady hpos
      obtain rfl := Option.some.inj hs
      exact leave_inv h hpos
    · cases hs

end Steps

/-! ## Whole runs -/

theorem init_inv : init.Inv where
  good := ⟨nofun, List.nodup_nil, nofun⟩
  round := ⟨⟨[], rfl⟩, nofun, nofun, nofun, nofun, nofun, rfl⟩
  progress := ⟨List.nil_sublist _, nofun⟩

/-- What a round serves. -/
structure Served (s : State) : Prop where
  /-- No `fd_set` is used outside its bounds, and `pselect` gets no number that is not open. -/
  alive : s.pos ≠ .stopped
  once : s.sets.twice = false
  /-- A visit is for a number that was reported, and asked for. -/
  visit : ∀ i readReady writeReady, s.pos = .visit i readReady writeReady →
    (readReady = true ∨ writeReady = true) ∧ ∃ x, s.world.selectFdList[i]? = some x ∧
      (readReady = true → (s.world.fds x).fd ∈ s.readyRead ∧ s.Asked Wants.wantReadGet s.aresRead x) ∧
      (writeReady = true → (s.world.fds x).fd ∈ s.readyWrite ∧ s.Asked Wants.wantWriteGet s.aresWrite x)
  /-- The visits are in the order of the list, one for a descriptor. -/
  order : s.visited.Sublist s.world.selectFdList ∧ s.visited.Nodup
  /-- At the end all that were reported have been visited, or were closed before. -/
  settled : s.pos = .outside → ∀ x ∈ s.built, s.Settled x

theorem State.Inv.served {s : State} (h : s.Inv) : Served s := by
  obtain ⟨hgood, hround, hprogress⟩ := h
  unfold State.Progress at hprogress
  have horder : s.visited.Sublist s.world.selectFdList := by
    cases hpos : s.pos <;> rw [hpos] at hprogress
    case outside => exact hprogress.1
    case built =>
      rw [hprogress.1]
      exact List.nil_sublist _
    case handlers =>
      rw [hprogress.1]
      exact List.nil_sublist _
    case look => exact hprogress.2.2.1.trans (List.take_sublist _ _)
    case visit =>
      obtain ⟨x, -, -, -, hsub, -⟩ := hprogress
      exact hsub.trans (List.take_sublist _ _)
    case stopped => exact hprogress.elim
  refine ⟨fun hpos => ?_, hround.once, fun i readReady writeReady hpos => ?_,
    ⟨horder, horder.nodup hgood.nodup⟩, fun hpos => ?_⟩
  · rw [hpos] at hprogress
    exact hprogress
  · rw [hpos] at hprogress
    obtain ⟨x, hx, -, hready, -, -, hread, hwrite⟩ := hprogress
    exact ⟨hready, x, hx, hread, hwrite⟩
  · rw [hpos] at hprogress
    exact hprogress.2

def writes : Wants := ⟨false, true, false, false, false, false, false⟩

/-- In the visit of a descriptor it is closed, and its number goes to one that is being connected. -/
def reuse : List Act :=
  [.use (.append 5 false writes), .build ∅ ∅ 0, .pselect (.ready ∅ {5}), .handled, .look, .use (.close 0),
    .use (.append 5 false writes), .leave, .look]

/-- A connect that has failed at once. -/
example : (run system init [.use (.append (-1) false writes), .build ∅ ∅ 0]).map State.pos =
    some .stopped := by decide

/-- A descriptor that is closed twice takes the number from the one that has it meanwhile. -/
example : (run system init [.use (.append 5 false writes), .use (.close 0), .use (.append 5 false writes),
    .use (.close 0), .build ∅ ∅ 0, .pselect .timeout]).map State.pos = some .stopped := by decide

/-- A process that has closed its pipe. -/
example : (run system init [.use (.append 5 false writes), .use (.bufClose 0), .build ∅ ∅ 0,
    .pselect .timeout]).map State.pos = some .stopped := by decide

end Netp.Genf.Rounds
