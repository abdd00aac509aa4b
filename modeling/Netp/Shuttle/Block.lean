import Netp.Shuttle.AvlInsert

/-! # Blocked connections (`link_block_store` and `block_conn` of `shuttle/attribute.c`)

The connections to drop lie in one AVL tree, `block`, each with its mirror image. A command looks for
the connection one way round only, and inserts both ways if it is not there.

`in_aton` is the kernel's; the two functions use it as it is.
-/

namespace Netp.Shuttle
set_option autoImplicit false

deriving instance DecidableEq for Connection

/-- Where a `struct connection` can be: on the stack of the two functions, or got from `kmalloc`. -/
inductive Ptr
  | frame
  | heap (n : ℕ)
  deriving DecidableEq

/-- The tree `block`, the key fields of the structs in memory, and the next memory `kmalloc` gives. -/
structure Block where
  tree : AvlTree Ptr
  conn : Ptr → Connection
  free : ℕ

namespace Block

/-- `conn_find( &block, &c )` for a `c` on the stack. -/
def connFind (s : Block) (c : Connection) : Option (Option Ptr) :=
  s.tree.find (connOrder (Function.update s.conn .frame c)) .frame

def connInsert (s : Block) (p : Ptr) : Option Block :=
  (s.tree.insert (connOrder s.conn) p).map fun r => { s with tree := r.1 }

/-- `kmalloc` of a struct, and the assignment to it. -/
def kmalloc (s : Block) (c : Connection) : Block :=
  { s with conn := Function.update s.conn (.heap s.free) c, free := s.free + 1 }

end Block

/-- The arguments of a `link_block_store`. -/
structure Cmd where
  ip1 : List UInt8
  port1 : ℤ
  ip2 : List UInt8
  port2 : ℤ

/-- A `long` assigned to a `uint16_t`. -/
def toPort (port : ℤ) : UInt16 := UInt16.ofNat (port % 2 ^ 16).toNat

def mirror (c : Connection) : Connection := ⟨c.addr2, c.addr1, c.port2, c.port1⟩

/-- `c1` of a command. -/
def Cmd.conn (inAton : List UInt8 → UInt32) (cmd : Cmd) : Connection :=
  ⟨inAton cmd.ip1, inAton cmd.ip2, toPort cmd.port1, toPort cmd.port2⟩

def linkBlockStore (inAton : List UInt8 → UInt32) (s : Block) (cmd : Cmd) : Option Block :=
  let c1 := cmd.conn inAton
  let c2 : Connection := ⟨c1.addr2, c1.addr1, c1.port2, c1.port1⟩
  (s.connFind c1).bind fun r =>
    match r with
    | some _ => some s
    | none =>
      let pc1 := Ptr.heap s.free
      let pc2 := Ptr.heap (s.free + 1)
      (((s.kmalloc c1).kmalloc c2).connInsert pc1).bind fun s => (s.connInsert pc2).bind fun s =>
        (s.connFind c1).map fun _ => s

/-- What `block_conn` reads of the headers, as the words lie in the packet. -/
structure Skb where
  saddr : UInt32
  daddr : UInt32
  source : UInt16
  dest : UInt16

def ntohs (v : UInt16) : UInt16 := (v >>> 8) ||| (v <<< 8)

def Skb.conn (skb : Skb) : Connection := ⟨skb.saddr, skb.daddr, ntohs skb.source, ntohs skb.dest⟩

def blockConn (s : Block) (skb : Skb) : Option Bool := (s.connFind skb.conn).map Option.isSome

/-- The module's start: nothing blocked, anything in memory. -/
def Block.start (el : Ptr → AvlEl Ptr) (conn : Ptr → Connection) : Block := ⟨emptyTree el, conn, 0⟩

def linkBlockStores (inAton : List UInt8 → UInt32) (s : Block) (cmds : List Cmd) : Option Block :=
  cmds.foldlM (linkBlockStore inAton) s

/-! ## The order -/

theorem connCompare_eq_zero {a b : Connection} : connCompare a b = 0 ↔ a = b := by
  constructor
  · intro h
    have hsymm : connCompare b a = 0 := (connOrder fun c : Connection => c).eq_symm h
    have hab := (connCompare_le_iff a b).mp (le_of_eq h)
    have hba := (connCompare_le_iff b a).mp (le_of_eq hsymm)
    obtain ⟨a1, a2, p1, p2⟩ := a
    obtain ⟨b1, b2, q1, q2⟩ := b
    simp only at hab hba
    rw [Connection.mk.injEq, ← UInt32.toNat_inj, ← UInt32.toNat_inj, ← UInt16.toNat_inj,
      ← UInt16.toNat_inj]
    omega
  · rintro rfl
    exact Compare.refl_eq (connOrder fun c : Connection => c) a

/-- A tree is ordered the same by any memory that agrees on its elements. -/
theorem IsAvl.congr {conn conn' : Ptr → Connection} {m : AvlTree Ptr} {ks : List Ptr}
    {t : BinaryTree Ptr} (h : IsAvl (connOrder conn) m ks t)
    (heq : ∀ p ∈ ks, conn' p = conn p) : IsAvl (connOrder conn') m ks t := by
  refine { h with sorted := ?_ }
  refine h.sorted.imp_of_mem fun {a b} ha hb hab => ?_
  simp only [connOrder] at hab ⊢
  rw [heq a (h.perm.mem_iff.mp ha), heq b (h.perm.mem_iff.mp hb)]
  exact hab

/-! ## The invariant -/

/-- The tree holds the connections of `cs`, in memory got from `kmalloc`. -/
structure Holds (s : Block) (cs : Connection → Prop) : Prop where
  tree : ∃ ks t, IsAvl (connOrder s.conn) s.tree ks t ∧ (∀ p ∈ ks, ∃ n < s.free, p = .heap n) ∧
    ∀ c, (∃ p ∈ ks, s.conn p = c) ↔ cs c

variable {s : Block} {cs : Connection → Prop}

theorem Holds.start (el : Ptr → AvlEl Ptr) (conn : Ptr → Connection) :
    Holds (Block.start el conn) fun _ => False :=
  ⟨[], .nil, isAvl_empty _ el, by simp, by simp⟩

theorem Holds.connFind (h : Holds s cs) (c : Connection) :
    ∃ r, s.connFind c = some r ∧ (r.isSome = true ↔ cs c) := by
  obtain ⟨ks, t, ht, hheap, hcs⟩ := h.tree
  have hold : ∀ p ∈ ks, Function.update s.conn .frame c p = s.conn p := by
    intro p hp
    obtain ⟨n, -, rfl⟩ := hheap p hp
    exact Function.update_of_ne (by simp) _ _
  refine ⟨_, find_spec (ht.congr hold) .frame, ?_⟩
  rw [List.find?_isSome, ← hcs c]
  simp only [connOrder, Function.update_self, beq_iff_eq, connCompare_eq_zero]
  constructor
  · rintro ⟨p, hp, hc⟩
    exact ⟨p, hp, by rw [hc, hold p hp]⟩
  · rintro ⟨p, hp, hc⟩
    exact ⟨p, hp, by rw [hold p hp, hc]⟩

theorem Holds.kmalloc (h : Holds s cs) (c : Connection) : Holds (s.kmalloc c) cs := by
  obtain ⟨ks, t, ht, hheap, hcs⟩ := h.tree
  have hold : ∀ p ∈ ks, (s.kmalloc c).conn p = s.conn p := by
    intro p hp
    obtain ⟨n, hn, rfl⟩ := hheap p hp
    have hne : Ptr.heap n ≠ Ptr.heap s.free := fun he => by
      have := Ptr.heap.inj he
      omega
    exact Function.update_of_ne hne _ _
  refine ⟨ks, t, ht.congr hold, ?_, ?_⟩
  · intro p hp
    obtain ⟨n, hn, rfl⟩ := hheap p hp
    exact ⟨n, by simp only [Block.kmalloc]; omega, rfl⟩
  · intro c'
    rw [← hcs c']
    constructor
    · rintro ⟨p, hp, hc⟩
      exact ⟨p, hp, by rw [← hold p hp, hc]⟩
    · rintro ⟨p, hp, hc⟩
      exact ⟨p, hp, by rw [hold p hp, hc]⟩

/-- An insertion of a struct that has its memory adds its connection, whether it was there or not. -/
theorem Holds.connInsert (h : Holds s cs) {n : ℕ} (hn : n < s.free) :
    ∃ s', s.connInsert (.heap n) = some s' ∧ s'.conn = s.conn ∧ s'.free = s.free ∧
      Holds s' fun c => cs c ∨ c = s.conn (.heap n) := by
  obtain ⟨ks, t, ht, hheap, hcs⟩ := h.tree
  unfold Block.connInsert
  rcases insert_spec ht (.heap n) with ⟨a, ha, hk, hins⟩ | ⟨hnew, m', t', hins, ht'⟩
  · have hka : s.conn (.heap n) = s.conn a := connCompare_eq_zero.mp hk
    refine ⟨s, by rw [hins]; rfl, rfl, rfl, ks, t, ht, hheap, fun c => ?_⟩
    rw [hcs c]
    constructor
    · exact Or.inl
    · rintro (hc | rfl)
      · exact hc
      · exact (hcs _).mp ⟨a, ha, hka.symm⟩
  · refine ⟨{ s with tree := m' }, by rw [hins]; rfl, rfl, rfl, ks ++ [.heap n], t', ht', ?_, fun c => ?_⟩
    · intro p hp
      rcases List.mem_append.mp hp with hp | hp
      · exact hheap p hp
      · exact ⟨n, hn, List.mem_singleton.mp hp⟩
    · rw [← hcs c]
      constructor
      · rintro ⟨p, hp, rfl⟩
        rcases List.mem_append.mp hp with hp | hp
        · exact .inl ⟨p, hp, rfl⟩
        · rw [List.mem_singleton.mp hp]
          exact .inr rfl
      · rintro (⟨p, hp, rfl⟩ | rfl)
        · exact ⟨p, List.mem_append_left _ hp, rfl⟩
        · exact ⟨.heap n, List.mem_append_right _ (List.mem_singleton.mpr rfl), rfl⟩

theorem Holds.linkBlockStore (inAton : List UInt8 → UInt32) (h : Holds s cs)
    (hmirror : ∀ c, cs c → cs (mirror c)) (cmd : Cmd) :
    ∃ s', linkBlockStore inAton s cmd = some s' ∧
      Holds s' fun c => cs c ∨ c = cmd.conn inAton ∨ c = mirror (cmd.conn inAton) := by
  obtain ⟨r, hr, hfound⟩ := h.connFind (cmd.conn inAton)
  unfold Shuttle.linkBlockStore
  simp only [hr, Option.bind_some]
  cases r with
  | some p =>
    -- the connection is there, and so is its mirror image
    have hin : cs (cmd.conn inAton) := hfound.mp rfl
    refine ⟨s, rfl, ?_⟩
    have hcs : (fun c => cs c ∨ c = cmd.conn inAton ∨ c = mirror (cmd.conn inAton)) = cs := by
      funext c
      apply propext
      constructor
      · rintro (hc | rfl | rfl)
        · exact hc
        · exact hin
        · exact hmirror _ hin
      · exact Or.inl
    rw [hcs]
    exact h
  | none =>
    have h0 := (h.kmalloc (cmd.conn inAton)).kmalloc (mirror (cmd.conn inAton))
    obtain ⟨s1, hs1, hconn1, hfree1, h1⟩ := h0.connInsert
      (n := s.free) (by simp only [Block.kmalloc]; omega)
    obtain ⟨s2, hs2, hconn2, -, h2⟩ := h1.connInsert
      (n := s.free + 1) (by rw [hfree1]; simp only [Block.kmalloc]; omega)
    obtain ⟨r', hr', -⟩ := h2.connFind (cmd.conn inAton)
    have hc1 : ((s.kmalloc (cmd.conn inAton)).kmalloc (mirror (cmd.conn inAton))).conn (.heap s.free) =
        cmd.conn inAton := by
      simp [Block.kmalloc]
    have hc2 : s1.conn (.heap (s.free + 1)) = mirror (cmd.conn inAton) := by
      rw [hconn1]
      simp [Block.kmalloc]
    refine ⟨s2, ?_, ?_⟩
    · simp only [mirror] at hs1
      rw [hs1]
      simp only [Option.bind_some, hs2, hr', Option.map_some]
    · rw [hc1, hc2] at h2
      simpa only [or_assoc] using h2

/-- The connections of commands and their mirror images. -/
def Named (inAton : List UInt8 → UInt32) (cmds : List Cmd) (c : Connection) : Prop :=
  ∃ cmd ∈ cmds, c = cmd.conn inAton ∨ c = mirror (cmd.conn inAton)

theorem Named.mirror {inAton : List UInt8 → UInt32} {cmds : List Cmd} {c : Connection}
    (h : Named inAton cmds c) : Named inAton cmds (mirror c) := by
  obtain ⟨cmd, hmem, rfl | rfl⟩ := h
  · exact ⟨cmd, hmem, .inr rfl⟩
  · exact ⟨cmd, hmem, .inl rfl⟩

theorem linkBlockStores_spec (inAton : List UInt8 → UInt32) (cmds done : List Cmd) {s : Block}
    (h : Holds s (Named inAton done)) : ∃ s', linkBlockStores inAton s cmds = some s' ∧
      Holds s' (Named inAton (done ++ cmds)) := by
  induction cmds generalizing done s with
  | nil => exact ⟨s, rfl, by simpa using h⟩
  | cons cmd cmds ih =>
    obtain ⟨s1, hs1, h1⟩ := h.linkBlockStore inAton (fun c => Named.mirror) cmd
    have hnamed : (fun c => Named inAton done c ∨ c = cmd.conn inAton ∨ c = mirror (cmd.conn inAton)) =
        Named inAton (done ++ [cmd]) := by
      funext c
      simp [Named, or_and_right, exists_or]
    rw [hnamed] at h1
    obtain ⟨s2, hs2, h2⟩ := ih (done ++ [cmd]) h1
    refine ⟨s2, ?_, by simpa using h2⟩
    unfold linkBlockStores at hs2 ⊢
    rw [List.foldlM_cons, hs1]
    exact hs2

/-- After any commands the tree `block` holds their connections and the mirror images and nothing
else, and a packet is dropped exactly when one of the commands names its endpoints, in either
direction. -/
theorem block_conn_iff (inAton : List UInt8 → UInt32) (el : Ptr → AvlEl Ptr) (conn : Ptr → Connection)
    (cmds : List Cmd) :
    ∃ s ks t, linkBlockStores inAton (Block.start el conn) cmds = some s ∧
      IsAvl (connOrder s.conn) s.tree ks t ∧
      (∀ c, (∃ p ∈ ks, s.conn p = c) ↔
        ∃ cmd ∈ cmds, c = cmd.conn inAton ∨ c = mirror (cmd.conn inAton)) ∧
      (∀ c, (∃ p ∈ ks, s.conn p = c) ↔ ∃ p ∈ ks, s.conn p = mirror c) ∧
      ∀ skb, ∃ b, blockConn s skb = some b ∧ (b = true ↔
        ∃ cmd ∈ cmds, skb.conn = cmd.conn inAton ∨ skb.conn = mirror (cmd.conn inAton)) := by
  have hnone : (fun _ => False) = Named inAton [] := by
    funext c
    simp [Named]
  have h0 := Holds.start el conn
  rw [hnone] at h0
  obtain ⟨s, hs, h⟩ := linkBlockStores_spec inAton cmds [] h0
  rw [List.nil_append] at h
  obtain ⟨ks, t, ht, -, hcs⟩ := h.tree
  refine ⟨s, ks, t, hs, ht, hcs, fun c => ?_, fun skb => ?_⟩
  · rw [hcs c, hcs (mirror c)]
    exact ⟨Named.mirror, fun hm => Named.mirror hm⟩
  · obtain ⟨r, hr, hfound⟩ := h.connFind skb.conn
    exact ⟨r.isSome, by rw [blockConn, hr]; rfl, hfound⟩

end Netp.Shuttle
