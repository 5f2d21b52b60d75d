import ArcSwap.Library.Bags
import ArcSwap.Model.Memory
import Mathlib.Data.Multiset.AddSub

/-! The pool of debt nodes: the list, the three states of `in_use` and the reservations of
writers. Threads are left out: what they hold is a bag of `Hold`s, and one step of the
program exchanges some holds for others.
-/

namespace ArcSwap

-----------------------------------------------------------------------------------------
-- What threads hold of the pool
-----------------------------------------------------------------------------------------

/-- The accesses that do not change the pool. -/
def Act.poolQuiet : Act → Prop
  | .setUse _ _ | .cooldown _ | .enterWriter _ | .leaveWriter _ | .newNode | .setNext _ _
  | .link _ _ => False
  | _ => True

/-- What a thread can hold of a node. -/
inductive Hold
  /-- A `LocalNode` refers to the node. -/
  | owned (n : NodeId)
  /-- `Node::get` has made the node and not linked it yet. -/
  | fresh (n : NodeId)
  /-- A traversal is at the node. -/
  | looks (n : NodeId)
  /-- A `NodeReservation`, taken in a cooldown period. -/
  | writes (n : NodeId) (period : Nat)
  /-- `check_cooldown` is about to end the cooldown it has checked in a period. -/
  | releases (n : NodeId) (period : Nat)
deriving DecidableEq

abbrev Holds := Multiset Hold

/-- A reservation of the node. -/
def Hold.isWriter (n : NodeId) : Hold → Bool
  | .writes m _ => m = n
  | _ => false

theorem Hold.eq_writes {n : NodeId} {h : Hold} (writer : h.isWriter n = true)
    : ∃ k, h = .writes n k := by
  cases h with
  | writes m k => exact ⟨k, by rw [of_decide_eq_true writer]⟩
  | owned | fresh | looks | releases => cases writer

/-- How many `LocalNode`s refer to a node. -/
def owners (H : Holds) (n : NodeId) : Nat :=
  H.count (.owned n) + H.count (.fresh n)

/-- How many reservations a node has. -/
def writers (H : Holds) (n : NodeId) : Nat :=
  H.countP fun h => h.isWriter n

/-- A traversal at the node it reaches next, if there is one. -/
def atNode : Option NodeId → Holds
  | none => 0
  | some n => {.looks n}

/-- The steps of the pool. The holds `r` are not involved. -/
inductive PoolStep (sh : Shared) (r : Holds) : Holds → Act → Holds → Prop
  | quiet {act} (quiet : act.poolQuiet) : PoolStep sh r r act r
  | head : PoolStep sh r r .nop (atNode sh.head + r)
  | next {n} : PoolStep sh r (.looks n ::ₘ r) .nop (atNode (sh.next n) + r)
  | drop {n act} (quiet : act.poolQuiet) : PoolStep sh r (.looks n ::ₘ r) act r
  /-- `check_cooldown` has seen no writer. -/
  | checked {n} (none : sh.activeWriters n = 0)
    : PoolStep sh r (.looks n ::ₘ r) .nop (.releases n (sh.epoch n) ::ₘ .looks n ::ₘ r)
  | release {n period} (cooldown : sh.inUse n = NODE_COOLDOWN)
    : PoolStep sh r (.releases n period ::ₘ r) (.setUse n NODE_UNUSED) r
  | notReleased {n period} : PoolStep sh r (.releases n period ::ₘ r) .nop r
  | claim {n} (unused : sh.inUse n = NODE_UNUSED)
    : PoolStep sh r (.looks n ::ₘ r) (.setUse n NODE_USED) (.owned n ::ₘ r)
  | fresh : PoolStep sh r r .newNode (.fresh sh.nNodes ::ₘ r)
  | link {n head} (same : sh.head = head)
    : PoolStep sh r (.fresh n ::ₘ r) (.link n head) (.owned n ::ₘ r)
  | retry {n head}
    : PoolStep sh r (.fresh n ::ₘ r) (.setNext n head) (.fresh n ::ₘ r)
  /-- A reservation, by a traversal or by the owner. -/
  | reserve {n h} (present : h = .looks n ∨ h = .owned n)
    : PoolStep sh r (h ::ₘ r) (.enterWriter n) (.writes n (sh.epoch n) ::ₘ h ::ₘ r)
  | leave {n period} : PoolStep sh r (.writes n period ::ₘ r) (.leaveWriter n) r
  /-- The walk gives up its reservation and goes on. -/
  | leaveOn {n period}
    : PoolStep sh r (.writes n period ::ₘ .looks n ::ₘ r) (.leaveWriter n)
        (atNode (sh.next n) + r)
  | cooldown {n} : PoolStep sh r (.owned n ::ₘ r) (.cooldown n) r

-----------------------------------------------------------------------------------------
-- Invariants
-----------------------------------------------------------------------------------------

/-- The list from `LIST_HEAD` runs through the linked nodes in the reverse order in which
they were linked.
-/
structure ListOk (nNodes : Nat) (head : Option NodeId) (next : NodeId → Option NodeId)
    (linked : NodeId → Bool) (rank : NodeId → Nat) (nLinked : Nat) : Prop where
  bound : ∀ {n}, linked n = true → n < nNodes
  rankLt : ∀ {n}, linked n = true → rank n < nLinked
  rankInj : ∀ {n m}, linked n = true → linked m = true → rank n = rank m → n = m
  headSome : ∀ {n}, head = some n → linked n = true ∧ rank n + 1 = nLinked
  headNone : head = none → nLinked = 0
  nextSome : ∀ {n m}, linked n = true → next n = some m
    → linked m = true ∧ rank m + 1 = rank n
  nextNone : ∀ {n}, linked n = true → next n = none → rank n = 0

/-- The list of debt nodes is in order. -/
abbrev Shared.ListOk (sh : Shared) : Prop :=
  ArcSwap.ListOk sh.nNodes sh.head sh.next sh.linked sh.rank sh.nLinked

/-- What holds of the pool together with all holds on it. -/
structure PoolInv (sh : Shared) (H : Holds) : Prop where
  list : sh.ListOk
  /-- A node is used exactly while one `LocalNode` refers to it. -/
  owner : ∀ n, owners H n = if sh.inUse n = NODE_USED then 1 else 0
  beyond : ∀ n, sh.nNodes ≤ n → sh.inUse n = NODE_UNUSED
  ownedLinked : ∀ n, .owned n ∈ H → sh.linked n = true
  freshNew : ∀ n, .fresh n ∈ H → sh.linked n = false ∧ n < sh.nNodes
  looksLinked : ∀ n, .looks n ∈ H → sh.linked n = true
  writersEq : ∀ n, sh.activeWriters n = writers H n
  writesBound : ∀ n k, .writes n k ∈ H → n < sh.nNodes ∧ k ≤ sh.epoch n
  /-- While a checked cooldown period lasts, the reservations are younger. -/
  releasesOk
    : ∀ n k, .releases n k ∈ H
      → n < sh.nNodes ∧ k ≤ sh.epoch n
        ∧ (k = sh.epoch n → ∀ j, .writes n j ∈ H → k ≤ j)

section counting

variable {H K : Holds} {n m : NodeId}

theorem owners_add : owners (H + K) n = owners H n + owners K n := by
  simp [owners]
  omega

theorem writers_add : writers (H + K) n = writers H n + writers K n := by
  simp [writers]

@[simp]
theorem owners_owned : owners (.owned m ::ₘ H) n = owners H n + if m = n then 1 else 0 := by
  simp [owners, Multiset.count_cons, eq_comm]
  omega

@[simp]
theorem owners_fresh : owners (.fresh m ::ₘ H) n = owners H n + if m = n then 1 else 0 := by
  simp [owners, Multiset.count_cons, eq_comm]
  omega

@[simp]
theorem owners_looks : owners (.looks m ::ₘ H) n = owners H n := by
  simp [owners]

@[simp]
theorem owners_writes {k} : owners (.writes m k ::ₘ H) n = owners H n := by
  simp [owners]

@[simp]
theorem owners_releases {k} : owners (.releases m k ::ₘ H) n = owners H n := by
  simp [owners]

theorem writers_cons {h}
    : writers (h ::ₘ H) n = writers H n + if h.isWriter n then 1 else 0 :=
  Multiset.countP_cons _ _ _

/-- A reservation that somebody holds is counted. -/
theorem writers_pos_of_mem {k} (held : .writes n k ∈ H) : 0 < writers H n :=
  Multiset.countP_pos.mpr ⟨_, held, by simp [Hold.isWriter]⟩

theorem owners_pos_of_owned (held : .owned n ∈ H) : 0 < owners H n :=
  Nat.add_pos_left (Multiset.count_pos.mpr held) _

theorem owners_pos_of_fresh (held : .fresh n ∈ H) : 0 < owners H n :=
  Nat.add_pos_right _ (Multiset.count_pos.mpr held)

end counting

/-- Only positions of traversals. -/
def OnlyLooks (L : Holds) : Prop :=
  ∀ h ∈ L, ∃ n, h = .looks n

theorem onlyLooks_atNode (o : Option NodeId) : OnlyLooks (atNode o) := by
  cases o <;> simp [OnlyLooks, atNode]

theorem onlyLooks_singleton (n : NodeId) : OnlyLooks {.looks n} := by
  simp [OnlyLooks]

theorem onlyLooks_zero : OnlyLooks 0 := by
  simp [OnlyLooks]

theorem looks_mem_atNode {o n} : .looks n ∈ atNode o ↔ o = some n := by
  cases o <;> simp [atNode, eq_comm]

section onlyLooks

variable {L : Holds} (only : OnlyLooks L)
include only

theorem OnlyLooks.owners (n : NodeId) : owners L n = 0 := by
  rw [ArcSwap.owners, Multiset.count_eq_zero_of_notMem, Multiset.count_eq_zero_of_notMem]
  · intro held
    obtain ⟨m, eq⟩ := only _ held
    cases eq
  · intro held
    obtain ⟨m, eq⟩ := only _ held
    cases eq

theorem OnlyLooks.writers (n : NodeId) : writers L n = 0 := by
  refine Multiset.countP_eq_zero.mpr fun h held => ?_
  obtain ⟨m, rfl⟩ := only _ held
  nofun

theorem OnlyLooks.mem {r : Holds} {h : Hold} (other : ∀ n, h ≠ .looks n)
    : h ∈ L + r ↔ h ∈ r := by
  rw [Multiset.mem_add, or_iff_right]
  intro held
  obtain ⟨m, eq⟩ := only _ held
  exact other m eq

end onlyLooks

/-- Traversals may move over linked nodes. -/
theorem PoolInv.move {sh L L' r} (inv : PoolInv sh (L + r)) (only : OnlyLooks L)
    (only' : OnlyLooks L') (linked : ∀ n, .looks n ∈ L' → sh.linked n = true)
    : PoolInv sh (L' + r) := by
  have back {h : Hold} (other : ∀ n, h ≠ .looks n) (held : h ∈ L' + r) : h ∈ L + r :=
    (only.mem other).mpr ((only'.mem other).mp held)
  exact {
    inv with
    owner := fun n => by
      rw [← inv.owner n, owners_add, owners_add, only.owners, only'.owners]
    ownedLinked := fun n held => inv.ownedLinked n (back nofun held)
    freshNew := fun n held => inv.freshNew n (back nofun held)
    looksLinked := fun n held => by
      rcases Multiset.mem_add.mp held with held | held
      · exact linked n held
      · exact inv.looksLinked n (Multiset.mem_add.mpr (Or.inr held))
    writersEq := fun n => by
      rw [inv.writersEq, writers_add, writers_add, only.writers, only'.writers]
    writesBound := fun n k held => inv.writesBound n k (back nofun held)
    releasesOk := fun n k held =>
      have ⟨bound, le, young⟩ := inv.releasesOk n k (back nofun held)
      ⟨bound, le, fun eq j writes => young eq j (back nofun writes)⟩
  }

theorem PoolInv.quiet {sh H} {act : Act} (inv : PoolInv sh H) (quiet : act.poolQuiet)
    : PoolInv (act.exec sh) H := by
  obtain ⟨list, owner, beyond, owned, fresh, looks, writersEq, writes, releases⟩ := inv
  cases act <;>
    first
      | exact ⟨list, owner, beyond, owned, fresh, looks, writersEq, writes, releases⟩
      | cases quiet

section

variable {sh : Shared} {r : Holds} {n : NodeId} {k : Nat}

/-- `check_cooldown` has seen that nobody has a reservation. -/
theorem PoolInv.checked (inv : PoolInv sh (.looks n ::ₘ r)) (none : sh.activeWriters n = 0)
    : PoolInv sh (.releases n (sh.epoch n) ::ₘ .looks n ::ₘ r) where
  list := inv.list
  owner m := by simpa using inv.owner m
  beyond := inv.beyond
  ownedLinked m held := inv.ownedLinked m (by simpa using held)
  freshNew m held := inv.freshNew m (by simpa using held)
  looksLinked m held := inv.looksLinked m (by simpa using held)
  writersEq m := by simpa [writers_cons, Hold.isWriter] using inv.writersEq m
  writesBound m j held := inv.writesBound m j (by simpa using held)
  releasesOk m j held := by
    rcases Multiset.mem_cons.mp held with eq | held
    · cases eq
      refine ⟨inv.list.bound (inv.looksLinked n (by simp)), le_rfl, fun _ i writes => ?_⟩
      have pos := writers_pos_of_mem writes
      rw [writers_cons, ← inv.writersEq n, none] at pos
      simp [Hold.isWriter] at pos
    · obtain ⟨bound, le, young⟩ := inv.releasesOk m j held
      exact ⟨bound, le, fun eq i writes => young eq i (by simpa using writes)⟩

/-- The end of `check_cooldown`. -/
theorem PoolInv.unchecked (inv : PoolInv sh (.releases n k ::ₘ r)) : PoolInv sh r where
  list := inv.list
  owner m := by simpa using inv.owner m
  beyond := inv.beyond
  ownedLinked m held := inv.ownedLinked m (by simpa using held)
  freshNew m held := inv.freshNew m (by simpa using held)
  looksLinked m held := inv.looksLinked m (by simpa using held)
  writersEq m := by simpa [writers_cons, Hold.isWriter] using inv.writersEq m
  writesBound m j held := inv.writesBound m j (by simpa using held)
  releasesOk m j held := by
    obtain ⟨bound, le, young⟩ := inv.releasesOk m j (by simp [held])
    exact ⟨bound, le, fun eq i writes => young eq i (by simp [writes])⟩

/-- The end of a cooldown. -/
theorem PoolInv.release (inv : PoolInv sh r) (bound : n < sh.nNodes)
    (cooldown : sh.inUse n = NODE_COOLDOWN)
    : PoolInv ((Act.setUse n NODE_UNUSED).exec sh) r where
  list := inv.list
  owner m := by
    by_cases eq : m = n
    · subst eq
      simpa [Act.exec, cooldown, NODE_COOLDOWN, NODE_UNUSED, NODE_USED] using inv.owner m
    · simpa [Act.exec, eq] using inv.owner m
  beyond m := by
    by_cases eq : m = n
    · subst eq
      simp [Act.exec]
    · simpa [Act.exec, eq] using inv.beyond m
  ownedLinked := inv.ownedLinked
  freshNew := inv.freshNew
  looksLinked := inv.looksLinked
  writersEq := inv.writersEq
  writesBound := inv.writesBound
  releasesOk := inv.releasesOk

/-- `Node::get` takes an unused node. -/
theorem PoolInv.claim (inv : PoolInv sh (.looks n ::ₘ r)) (unused : sh.inUse n = NODE_UNUSED)
    : PoolInv ((Act.setUse n NODE_USED).exec sh) (.owned n ::ₘ r) where
  list := inv.list
  owner m := by
    have owner := inv.owner m
    by_cases eq : m = n
    · subst eq
      simpa [Act.exec, unused, NODE_UNUSED, NODE_USED] using owner
    · simpa [Act.exec, eq, Ne.symm eq] using owner
  beyond m above := by
    have linked := inv.list.bound (inv.looksLinked n (by simp))
    have other : m ≠ n := by
      rintro rfl
      exact absurd linked (Nat.not_lt.mpr above)
    simpa [Act.exec, other] using inv.beyond m above
  ownedLinked m held := by
    rcases Multiset.mem_cons.mp held with eq | held
    · cases eq
      exact inv.looksLinked n (by simp)
    · exact inv.ownedLinked m (by simp [held])
  freshNew m held := inv.freshNew m (by simpa using held)
  looksLinked m held := inv.looksLinked m (by simp at held; simp [held])
  writersEq m := by simpa [Act.exec, writers_cons, Hold.isWriter] using inv.writersEq m
  writesBound m j held := inv.writesBound m j (by simpa using held)
  releasesOk m j held := by
    obtain ⟨bound, le, young⟩ := inv.releasesOk m j (by simpa using held)
    exact ⟨bound, le, fun eq i writes => young eq i (by simpa using writes)⟩

/-- `start_cooldown` swaps the state of the node. -/
theorem PoolInv.cooldown (inv : PoolInv sh (.owned n ::ₘ r))
    : PoolInv ((Act.cooldown n).exec sh) r where
  list := inv.list
  owner m := by
    have owner := inv.owner m
    by_cases eq : m = n
    · subst eq
      simp only [owners_owned, ↓reduceIte] at owner
      split at owner
      · simpa [Act.exec, NODE_COOLDOWN, NODE_USED] using owner
      · omega
    · simpa [Act.exec, eq, Ne.symm eq] using owner
  beyond m above := by
    have linked := inv.list.bound (inv.ownedLinked n (by simp))
    have other : m ≠ n := by
      rintro rfl
      exact absurd linked (Nat.not_lt.mpr above)
    simpa [Act.exec, other] using inv.beyond m above
  ownedLinked m held := inv.ownedLinked m (by simp [held])
  freshNew m held := inv.freshNew m (by simpa using held)
  looksLinked m held := inv.looksLinked m (by simp [held])
  writersEq m := by simpa [Act.exec, writers_cons, Hold.isWriter] using inv.writersEq m
  writesBound m j held := by
    obtain ⟨bound, le⟩ := inv.writesBound m j (by simp [held])
    refine ⟨bound, ?_⟩
    simp only [Act.exec, Function.update_apply]
    split
    · subst m
      exact Nat.le_succ_of_le le
    · exact le
  releasesOk m j held := by
    obtain ⟨bound, le, young⟩ := inv.releasesOk m j (by simp [held])
    refine ⟨bound, ?_⟩
    simp only [Act.exec, Function.update_apply]
    split
    · subst m
      exact ⟨Nat.le_succ_of_le le, fun eq => absurd eq (Nat.ne_of_lt (Nat.lt_succ_of_le le))⟩
    · exact ⟨le, fun eq i writes => young eq i (by simp [writes])⟩

/-- `Node::reserve_writer`. -/
theorem PoolInv.reserve (inv : PoolInv sh r) (bound : n < sh.nNodes)
    : PoolInv ((Act.enterWriter n).exec sh) (.writes n (sh.epoch n) ::ₘ r) where
  list := inv.list
  owner m := (owners_writes).trans (inv.owner m)
  beyond := inv.beyond
  ownedLinked m held := inv.ownedLinked m (by simpa using held)
  freshNew m held := inv.freshNew m (by simpa using held)
  looksLinked m held := inv.looksLinked m (by simpa using held)
  writersEq m := by
    have writers := inv.writersEq m
    by_cases eq : m = n
    · subst eq
      simp [Act.exec, writers_cons, Hold.isWriter, writers]
    · simp [Act.exec, writers_cons, Hold.isWriter, writers, eq, Ne.symm eq]
  writesBound m j held := by
    rcases Multiset.mem_cons.mp held with eq | held
    · cases eq
      exact ⟨bound, le_rfl⟩
    · exact inv.writesBound m j held
  releasesOk m j held := by
    obtain ⟨bound, le, young⟩ := inv.releasesOk m j (by simpa using held)
    refine ⟨bound, le, fun eq i writes => ?_⟩
    rcases Multiset.mem_cons.mp writes with new | writes
    · cases new
      exact le
    · exact young eq i writes

/-- The drop of a `NodeReservation`. -/
theorem PoolInv.leave (inv : PoolInv sh (.writes n k ::ₘ r))
    : PoolInv ((Act.leaveWriter n).exec sh) r where
  list := inv.list
  owner m := (owners_writes).symm.trans (inv.owner m)
  beyond := inv.beyond
  ownedLinked m held := inv.ownedLinked m (by simpa using held)
  freshNew m held := inv.freshNew m (by simpa using held)
  looksLinked m held := inv.looksLinked m (by simpa using held)
  writersEq m := by
    have writers := inv.writersEq m
    by_cases eq : m = n
    · subst eq
      simp [Act.exec, writers_cons, Hold.isWriter, writers]
    · simpa [Act.exec, writers_cons, Hold.isWriter, eq, Ne.symm eq] using writers
  writesBound m j held := inv.writesBound m j (by simp [held])
  releasesOk m j held := by
    obtain ⟨bound, le, young⟩ := inv.releasesOk m j (by simp [held])
    exact ⟨bound, le, fun eq i writes => young eq i (by simp [writes])⟩

/-- `Node::get` makes a new node, which starts as used. -/
theorem PoolInv.newNode (inv : PoolInv sh r)
    : PoolInv (Act.newNode.exec sh) (.fresh sh.nNodes ::ₘ r) where
  list := by
    obtain ⟨bound, rankLt, rankInj, headSome, headNone, nextSome, nextNone⟩ := inv.list
    have old {n} (linked : sh.linked n = true) : n ≠ sh.nNodes := Nat.ne_of_lt (bound linked)
    constructor <;> simp only [Act.exec, Function.update_apply]
    · grind
    · grind
    · grind
    · grind
    · exact headNone
    · grind
    · grind
  owner m := by
    have owner := inv.owner m
    by_cases eq : m = sh.nNodes
    · subst eq
      simpa [Act.exec, inv.beyond, NODE_UNUSED, NODE_USED] using owner
    · simpa [Act.exec, eq, Ne.symm eq] using owner
  beyond m above := by
    have other : m ≠ sh.nNodes := by
      rintro rfl
      exact absurd above (by simp [Act.exec])
    simpa [Act.exec, other] using inv.beyond m (Nat.le_of_succ_le above)
  ownedLinked m held := by
    have linked := inv.ownedLinked m (by simpa using held)
    have other : m ≠ sh.nNodes := Nat.ne_of_lt (inv.list.bound linked)
    simpa [Act.exec, other] using linked
  freshNew m held := by
    rcases Multiset.mem_cons.mp held with eq | held
    · cases eq
      simp [Act.exec]
    · obtain ⟨unlinked, bound⟩ := inv.freshNew m held
      have other : m ≠ sh.nNodes := Nat.ne_of_lt bound
      exact ⟨by simpa [Act.exec, other] using unlinked, Nat.lt_succ_of_lt bound⟩
  looksLinked m held := by
    have linked := inv.looksLinked m (by simpa using held)
    have other : m ≠ sh.nNodes := Nat.ne_of_lt (inv.list.bound linked)
    simpa [Act.exec, other] using linked
  writersEq m := by
    have writers := inv.writersEq m
    by_cases eq : m = sh.nNodes
    · subst eq
      have none : ArcSwap.writers r sh.nNodes = 0 := by
        refine Multiset.countP_eq_zero.mpr fun h held writer => ?_
        obtain ⟨k, rfl⟩ := Hold.eq_writes writer
        exact absurd (inv.writesBound _ k held).1 (Nat.lt_irrefl _)
      simp [Act.exec, writers_cons, Hold.isWriter, none]
    · simpa [Act.exec, writers_cons, Hold.isWriter, eq, Ne.symm eq] using writers
  writesBound m j held := by
    obtain ⟨bound, le⟩ := inv.writesBound m j (by simpa using held)
    exact ⟨Nat.lt_succ_of_lt bound, le⟩
  releasesOk m j held := by
    obtain ⟨bound, le, young⟩ := inv.releasesOk m j (by simpa using held)
    exact ⟨Nat.lt_succ_of_lt bound, le, fun eq i writes => young eq i (by simpa using writes)⟩

/-- A new node is not in the list, so its `next` does not matter. -/
theorem PoolInv.setNext (inv : PoolInv sh (.fresh n ::ₘ r)) (head : Option NodeId)
    : PoolInv ((Act.setNext n head).exec sh) (.fresh n ::ₘ r) := by
  obtain ⟨list, owner, beyond, owned, fresh, looks, writersEq, writes, releases⟩ := inv
  refine ⟨?_, owner, beyond, owned, fresh, looks, writersEq, writes, releases⟩
  obtain ⟨bound, rankLt, rankInj, headSome, headNone, nextSome, nextNone⟩ := list
  have unlinked := (fresh n (by simp)).1
  refine ⟨bound, rankLt, rankInj, headSome, headNone, ?_, ?_⟩
  · simp only [Act.exec, Function.update_apply]
    grind
  · simp only [Act.exec, Function.update_apply]
    grind

/-- A new node is prepended. -/
theorem PoolInv.link {head} (inv : PoolInv sh (.fresh n ::ₘ r)) (same : sh.head = head)
    : PoolInv ((Act.link n head).exec sh) (.owned n ::ₘ r) where
  list := by
    obtain ⟨bound, rankLt, rankInj, headSome, headNone, nextSome, nextNone⟩ := inv.list
    obtain ⟨unlinked, inside⟩ := inv.freshNew n (by simp)
    constructor <;> simp only [Act.exec, Function.update_apply]
    · grind
    · grind
    · grind
    · grind
    · nofun
    · grind
    · grind
  owner m := by
    rw [owners_owned, ← owners_fresh]
    exact inv.owner m
  beyond := inv.beyond
  ownedLinked m held := by
    simp only [Act.exec, Function.update_apply]
    split
    · rfl
    · rcases Multiset.mem_cons.mp held with eq | held
      · cases eq
        contradiction
      · exact inv.ownedLinked m (by simp [held])
  freshNew m held := by
    obtain ⟨unlinked, bound⟩ := inv.freshNew m (by simp at held; simp [held])
    refine ⟨?_, bound⟩
    have other : m ≠ n := by
      rintro rfl
      have owner := inv.owner m
      have pos := owners_pos_of_fresh (n := m) (H := r) (by simpa using held)
      simp only [owners_fresh, ↓reduceIte] at owner
      split at owner <;> omega
    simpa [Act.exec, other] using unlinked
  looksLinked m held := by
    have linked := inv.looksLinked m (by simpa using held)
    simp only [Act.exec, Function.update_apply]
    split
    · rfl
    · exact linked
  writersEq m := by simpa [Act.exec, writers_cons, Hold.isWriter] using inv.writersEq m
  writesBound m j held := inv.writesBound m j (by simpa using held)
  releasesOk m j held := by
    obtain ⟨bound, le, young⟩ := inv.releasesOk m j (by simpa using held)
    exact ⟨bound, le, fun eq i writes => young eq i (by simpa using writes)⟩

end

/-- A node that a `LocalNode` refers to is in use. -/
theorem PoolInv.used {sh H n} (inv : PoolInv sh H) (held : .owned n ∈ H)
    : sh.inUse n = NODE_USED := by
  have owner := inv.owner n
  have pos := owners_pos_of_owned held
  split at owner
  · assumption
  · omega

/-- The invariants do not depend on the clock. -/
theorem PoolInv.tick {sh H time} (inv : PoolInv sh H) : PoolInv { sh with time } H := by
  obtain ⟨list, owner, beyond, owned, fresh, looks, writersEq, writes, releases⟩ := inv
  exact ⟨list, owner, beyond, owned, fresh, looks, writersEq, writes, releases⟩

/-- Every step of the pool preserves the invariants. -/
theorem PoolStep.inv {sh r old act new} (step : PoolStep sh r old act new)
    (inv : PoolInv sh old)
    : PoolInv (act.exec sh) new := by
  cases step with
  | quiet quiet => exact inv.quiet quiet
  | head =>
      change PoolInv sh _
      refine PoolInv.move (L := 0) (by simpa using inv) onlyLooks_zero (onlyLooks_atNode _) ?_
      exact fun n there => (inv.list.headSome (looks_mem_atNode.mp there)).1
  | @next n =>
      change PoolInv sh _
      have linked := inv.looksLinked n (by simp)
      refine PoolInv.move (L := {.looks n}) inv (onlyLooks_singleton n) (onlyLooks_atNode _) ?_
      exact fun m there => (inv.list.nextSome linked (looks_mem_atNode.mp there)).1
  | @drop n _ quiet =>
      have gone := PoolInv.move (L := {.looks n}) inv (onlyLooks_singleton n) onlyLooks_zero
        (by simp)
      exact PoolInv.quiet (by simpa using gone) quiet
  | checked none => exact inv.checked none
  | @release n k cooldown =>
      exact inv.unchecked.release (inv.releasesOk n k (by simp)).1 cooldown
  | notReleased => exact inv.unchecked
  | claim unused => exact inv.claim unused
  | fresh => exact inv.newNode
  | link same => exact inv.link same
  | retry => exact inv.setNext _
  | reserve present =>
      refine inv.reserve (inv.list.bound ?_)
      rcases present with rfl | rfl
      · exact inv.looksLinked _ (by simp)
      · exact inv.ownedLinked _ (by simp)
  | leave => exact inv.leave
  | @leaveOn n =>
      have linked := inv.looksLinked n (by simp)
      have left : PoolInv _ ({.looks n} + r) := inv.leave
      refine left.move (onlyLooks_singleton n) (onlyLooks_atNode _) ?_
      exact fun m there => (inv.list.nextSome linked (looks_mem_atNode.mp there)).1
  | cooldown => exact inv.cooldown

end ArcSwap
