import ArcSwap.Proofs.Coverage
import Mathlib.Algebra.Order.BigOperators.Group.Finset

/-! The ledger of strong counts. Every count of an object belongs to a handle, to a
protection, to a writer, to a storage or to an envelope in flight, and the counts that are
missing are the ones that occupied slots owe.
-/

namespace ArcSwap

open Bags Finset

-----------------------------------------------------------------------------------------
-- The two sides of the ledger
-----------------------------------------------------------------------------------------

/-- The strong count of the object at an address. -/
def Shared.strong (sh : Shared) (a : Nat) : Nat :=
  ((sh.heap a).map Obj.strong).getD 0

/-- The debt slots that contain the address. -/
def Shared.slotsAt (sh : Shared) (a : Nat) : Nat :=
  ∑ x ∈ range sh.nNodes ×ˢ range (HELPING + 1), if sh.slot x.1 x.2 = a then 1 else 0

/-- The storages in use that hold the address. -/
def Shared.cellsAt (sh : Shared) (a : Nat) : Nat :=
  ∑ c ∈ range sh.nCells, if sh.status c = .live ∧ (sh.ptr c).addr = a then 1 else 0

/-- The replacements in control words that have the address. -/
def Shared.giftsAt (sh : Shared) (a : Nat) : Nat :=
  ∑ n ∈ range sh.nNodes, if (sh.gift n).map Ptr.addr = some a then 1 else 0

/-- The token stands for a count of the object at the address, or for a debt. -/
def Token.claims (a : Nat) : Token → Nat
  | .own p | .debt p _ _ | .pending p _ _ | .walk _ p _ _ | .finished _ p _ =>
      if p.addr = a then 1 else 0
  | _ => 0

/-- The destructor of the object at the address is running. -/
def Token.dyings (a : Nat) : Token → Nat
  | .dying p => if p.addr = a then 1 else 0
  | _ => 0

/-- The count of the object at the address, and what the slots owe to it, make up what is
claimed of it.
-/
def Balanced (sh : Shared) (M : Tokens) (a : Nat) : Prop :=
  sh.strong a + sh.slotsAt a = tally (Token.claims a) M + sh.cellsAt a + sh.giftsAt a

section sides

variable {sh sh' : Shared} {a : Nat}

/-- One slot changes. -/
theorem Shared.slotsAt_change (sh' : Shared) {n i} (node : n < sh.nNodes) (bound : i ≤ HELPING)
    (nodes : sh'.nNodes = sh.nNodes)
    (others : ∀ m j, ¬ (m = n ∧ j = i) → sh'.slot m j = sh.slot m j)
    : sh'.slotsAt a + (if sh.slot n i = a then 1 else 0)
      = sh.slotsAt a + (if sh'.slot n i = a then 1 else 0) := by
  have inside : (n, i) ∈ range sh.nNodes ×ˢ range (HELPING + 1) := by
    simp [node, Nat.lt_succ_of_le bound]
  rw [slotsAt, nodes]
  refine sum_exchange (g := fun x => if sh.slot x.1 x.2 = a then 1 else 0) inside ?_
  rintro ⟨m, j⟩ _ other
  simp only
  rw [others m j fun ⟨eq, eq'⟩ => other (by rw [eq, eq'])]

/-- The control word of one node gets a replacement or loses it. -/
theorem Shared.giftsAt_change (sh' : Shared) {n} (node : n < sh.nNodes)
    (nodes : sh'.nNodes = sh.nNodes)
    (others : ∀ m, m ≠ n → sh'.gift m = sh.gift m)
    : sh'.giftsAt a + (if (sh.gift n).map Ptr.addr = some a then 1 else 0)
      = sh.giftsAt a + (if (sh'.gift n).map Ptr.addr = some a then 1 else 0) := by
  rw [giftsAt, nodes]
  refine sum_exchange (g := fun n => if (sh.gift n).map Ptr.addr = some a then 1 else 0)
    (mem_range.mpr node) ?_
  intro m _ other
  rw [others m other]

/-- One storage changes. -/
theorem Shared.cellsAt_change {c} (bound : c < sh.nCells) (cells : sh'.nCells = sh.nCells)
    (others : ∀ d, d ≠ c → sh'.status d = sh.status d ∧ sh'.ptr d = sh.ptr d)
    : sh'.cellsAt a + (if sh.status c = .live ∧ (sh.ptr c).addr = a then 1 else 0)
      = sh.cellsAt a + (if sh'.status c = .live ∧ (sh'.ptr c).addr = a then 1 else 0) := by
  rw [cellsAt, cells]
  refine sum_exchange
    (g := fun c => if sh.status c = .live ∧ (sh.ptr c).addr = a then 1 else 0)
    (mem_range.mpr bound) ?_
  intro d _ other
  rw [(others d other).1, (others d other).2]

/-- A new node has empty slots. -/
theorem Shared.slotsAt_newNode (word : a ≠ NONE)
    : (Act.newNode.exec sh).slotsAt a = sh.slotsAt a := by
  have fresh
      : ∑ i ∈ range (HELPING + 1), (if (Act.newNode.exec sh).slot sh.nNodes i = a then 1 else 0)
        = 0 := by
    simp [Act.exec, word.symm]
  rw [slotsAt, slotsAt, sum_product, sum_product]
  refine (sum_range_succ _ sh.nNodes).trans ?_
  refine (congrArg _ fresh).trans ((Nat.add_zero _).trans ?_)
  refine sum_congr rfl fun n member => sum_congr rfl fun i _ => ?_
  simp [Act.exec, Nat.ne_of_lt (mem_range.mp member)]

/-- A new node has no replacement. -/
theorem Shared.giftsAt_newNode : (Act.newNode.exec sh).giftsAt a = sh.giftsAt a := by
  rw [giftsAt, giftsAt]
  refine (sum_range_succ _ sh.nNodes).trans ?_
  have fresh : (Act.newNode.exec sh).gift sh.nNodes = none := by simp [Act.exec]
  simp only [fresh, Option.map_none, reduceCtorEq, ↓reduceIte, Nat.add_zero]
  refine sum_congr rfl fun n member => ?_
  simp [Act.exec, Nat.ne_of_lt (mem_range.mp member)]

/-- A new storage holds what it was made from. -/
theorem Shared.cellsAt_newCell {p b useFast}
    : ((Act.newCell p b useFast).exec sh).cellsAt a
      = sh.cellsAt a + (if p.addr = a then 1 else 0) := by
  rw [cellsAt, cellsAt]
  refine (sum_range_succ _ sh.nCells).trans ?_
  congr 1
  · refine sum_congr rfl fun c member => ?_
    simp [Act.exec, Nat.ne_of_lt (mem_range.mp member)]
  · simp [Act.exec]

/-- The count of one object changes. -/
theorem Shared.strong_count {f b o} (there : sh.heap b = some o) (heap : sh'.heap = sh.count b f)
    : sh'.strong a = if a = b then f (sh.strong b) else sh.strong a := by
  by_cases eq : a = b
  · subst eq
    simp [strong, heap, count, there]
  · simp [strong, heap, count, eq]

theorem Shared.cellsAt_pos (bound : ∀ c, sh.status c ≠ .gone → c < sh.nCells)
    (stored : sh.Stored a)
    : 1 ≤ sh.cellsAt a := by
  obtain ⟨c, live, addr⟩ := stored
  have inside := mem_range.mpr (bound c (by simp [live]))
  refine Nat.le_trans ?_ (single_le_sum (fun d _ => Nat.zero_le _) inside)
  simp [live, addr]

theorem Shared.giftsAt_pos {n g} (node : n < sh.nNodes) (given : sh.gift n = some g)
    : 1 ≤ sh.giftsAt g.addr := by
  refine Nat.le_trans ?_ (single_le_sum (fun d _ => Nat.zero_le _) (mem_range.mpr node))
  simp [given]

end sides

-----------------------------------------------------------------------------------------
-- Occupied slots are covered by debts
-----------------------------------------------------------------------------------------

/-- The slot that a protection of the address is registered in. -/
def Token.debtor (a : Nat) : Token → Option (NodeId × Nat)
  | .debt p n i | .pending p n i => if p.addr = a then some (n, i) else none
  | _ => none

/-- A protection is claimed once. -/
theorem card_debtor_le (a : Nat) (M : Tokens)
    : Multiset.card (M.filterMap (Token.debtor a)) ≤ tally (Token.claims a) M := by
  induction M using Multiset.induction with
  | empty => simp
  | cons tok M ih =>
      rw [tally_cons]
      cases eq : tok.debtor a with
      | none =>
          rw [Multiset.filterMap_cons_none _ _ eq]
          omega
      | some slot =>
          have claimed : tok.claims a = 1 := by
            cases tok <;> simp [Token.debtor] at eq <;> simp [Token.claims, eq.1]
          rw [Multiset.filterMap_cons_some _ _ _ eq, Multiset.card_cons]
          omega

/-- Slots are owed by different protections. -/
theorem Shared.slotsAt_le {sh : Shared} {M : Tokens} {a : Nat}
    (owed : ∀ n i, sh.slot n i = a → Owed M n i a)
    : sh.slotsAt a ≤ tally (Token.claims a) M := by
  refine Nat.le_trans ?_ (card_debtor_le a M)
  rw [slotsAt, ← card_filter]
  apply Multiset.card_le_card
  rw [Finset.val_le_iff_val_subset]
  intro x inside
  have there : sh.slot x.1 x.2 = a := (mem_filter.mp inside).2
  obtain ⟨p, addr, held⟩ := owed x.1 x.2 there
  rw [Multiset.mem_filterMap]
  rcases held with held | held
  · exact ⟨_, held, by simp [Token.debtor, addr]⟩
  · exact ⟨_, held, by simp [Token.debtor, addr]⟩

-----------------------------------------------------------------------------------------
-- The invariant
-----------------------------------------------------------------------------------------

/-- The object that the pointer was made for exists. -/
structure Ptr.Valid (sh : Shared) (p : Ptr) : Prop where
  word : p.addr ≠ NONE
  null : p.addr = 0 → p.prov = 0
  object : p.addr ≠ 0 → ∃ o, sh.heap p.addr = some o ∧ o.id = p.prov

/-- Pointers with a count are valid, and none that is read is the word of an empty slot. -/
def Token.Fine (sh : Shared) : Token → Prop
  | .own p | .debt p _ _ | .walk _ p _ _ | .finished _ p _ => p.Valid sh
  | .pending p _ _ | .seen p | .session _ (.scanned _ p) | .session _ (.candidate _ _ p) =>
      p.addr ≠ NONE
  | _ => True

structure LedgerInv (sh : Shared) (M : Tokens) : Prop where
  cover : CoverInv sh M
  fine : ∀ tok ∈ M, tok.Fine sh
  cells : ∀ c, sh.status c = .live → (sh.ptr c).Valid sh
  gifts : ∀ n g, sh.gift n = some g → g.Valid sh
  null : sh.heap 0 = none
  word : sh.heap NONE = none
  dying
    : ∀ a, tally (Token.dyings a) M = if (sh.heap a).map Obj.strong = some 0 then 1 else 0
  balanced : ∀ a, a ≠ 0 → a ≠ NONE → Balanced sh M a

section invariant

variable {sh : Shared} {M r : Tokens} {a : Nat} {p : Ptr}

/-- Pointers to one address are pointers to one object. -/
theorem Ptr.Valid.alike {q : Ptr} (valid : p.Valid sh) (valid' : q.Valid sh)
    (same : p.addr = q.addr)
    : p.Alike q := by
  refine ⟨same, ?_⟩
  by_cases null : p.addr = 0
  · rw [valid.null null, valid'.null (same ▸ null)]
  · obtain ⟨o, there, id⟩ := valid.object null
    obtain ⟨o', there', id'⟩ := valid'.object (same ▸ null)
    rw [← same, there] at there'
    cases there'
    exact id.symm.trans id'

theorem Ptr.Valid.keep {sh' : Shared} (valid : p.Valid sh)
    (heap
      : ∀ o, p.addr ≠ 0 → sh.heap p.addr = some o
        → ∃ o', sh'.heap p.addr = some o' ∧ o'.id = o.id)
    : p.Valid sh' := by
  refine ⟨valid.word, valid.null, ?_⟩
  intro real
  obtain ⟨o, there, id⟩ := valid.object real
  obtain ⟨o', there', id'⟩ := heap o real there
  exact ⟨o', there', id'.trans id⟩

/-- What is claimed beyond the debts is counted. -/
theorem LedgerInv.counted {tok} (inv : LedgerInv sh (tok ::ₘ r)) (real : a ≠ 0)
    (word : a ≠ NONE) (owed : ∀ n i, sh.slot n i = a → Owed r n i a)
    : tok.claims a + sh.cellsAt a + sh.giftsAt a ≤ sh.strong a := by
  have balanced := inv.balanced a real word
  have slots := Shared.slotsAt_le owed
  rw [Balanced, tally_cons] at balanced
  omega

/-- Storages and replacements have their counts. -/
theorem LedgerInv.placed (inv : LedgerInv sh M) (real : a ≠ 0) (word : a ≠ NONE)
    : sh.cellsAt a + sh.giftsAt a ≤ sh.strong a := by
  have balanced := inv.balanced a real word
  have slots := Shared.slotsAt_le (M := M) (a := a) fun n i there =>
    there ▸ inv.cover.owed n i (there ▸ word)
  rw [Balanced] at balanced
  omega

/-- The debts of others do not go with a token that owes nothing to the slot. -/
theorem Owed.others {tok n i} (owed : Owed (tok ::ₘ r) n i a)
    (other : tok.debtor a ≠ some (n, i))
    : Owed r n i a := by
  obtain ⟨q, addr, held⟩ := owed
  refine ⟨q, addr, held.imp ?_ ?_⟩ <;>
    exact fun held => (Multiset.mem_cons.mp held).resolve_left (by
      rintro rfl
      exact other (by simp [Token.debtor, addr]))

/-- A count that is owned has been counted. -/
theorem LedgerInv.owned {tok} (inv : LedgerInv sh M) (inside : tok ∈ M)
    (claims : tok.claims a = 1)
    (paid : ∀ n i, tok.debtor a = some (n, i) → sh.slot n i ≠ a) (real : a ≠ 0)
    (word : a ≠ NONE)
    : 1 ≤ sh.strong a := by
  obtain ⟨r, rfl⟩ := Multiset.exists_cons_of_mem inside
  have counted := inv.counted real word fun n i there => by
    refine Owed.others (there ▸ inv.cover.owed n i (there ▸ word)) fun owes => ?_
    exact paid n i owes there
  omega

/-- A walk has a count. -/
theorem LedgerInv.walking {c since pos} (inv : LedgerInv sh M) (walk : .walk c p since pos ∈ M)
    (real : p.addr ≠ 0)
    : 1 ≤ sh.strong p.addr :=
  inv.owned walk (by simp [Token.claims]) (by simp [Token.debtor]) real (inv.fine _ walk).word

/-- A protection is counted as soon as it is confirmed, by itself or by what covers it. -/
theorem LedgerInv.indebted {n i} (inv : LedgerInv sh M)
    (bound : ∀ c, sh.status c ≠ .gone → c < sh.nCells) (debt : .debt p n i ∈ M)
    (real : p.addr ≠ 0)
    : 1 ≤ sh.strong p.addr := by
  have word : p.addr ≠ NONE := (inv.fine _ debt).word
  by_cases there : sh.slot n i = p.addr
  · rcases inv.cover.covered n i (there ▸ word)
      with ⟨q, addr, held⟩ | stored | ⟨c, q, since, pos, walk, addr, _⟩
    · obtain ⟨r, rfl⟩ := Multiset.exists_cons_of_mem debt
      have counted := inv.counted real word fun m j there' => by
        have owed := there' ▸ inv.cover.owed m j (there' ▸ word)
        by_cases here : m = n ∧ j = i
        · obtain ⟨rfl, rfl⟩ := here
          exact ⟨q, addr.trans there, .inr (by simpa using held)⟩
        · refine Owed.others owed ?_
          simp only [Token.debtor, ↓reduceIte, ne_eq, Option.some.injEq, Prod.mk.injEq]
          exact fun ⟨eq, eq'⟩ => here ⟨eq.symm, eq'.symm⟩
      simp only [Token.claims, ↓reduceIte] at counted
      omega
    · have placed := inv.placed real word
      have stored := Shared.cellsAt_pos bound (there ▸ stored)
      omega
    · rw [← addr.trans there] at real ⊢
      exact inv.walking walk real
  · refine inv.owned debt (by simp [Token.claims]) ?_ real word
    simp only [Token.debtor, ↓reduceIte, Option.some.injEq, Prod.mk.injEq]
    rintro m j ⟨rfl, rfl⟩
    exact there

/-- A pointer that somebody has a count of, or a debt for. -/
theorem LedgerInv.kept (inv : LedgerInv sh M)
    (bound : ∀ c, sh.status c ≠ .gone → c < sh.nCells) (kept : Kept p M)
    : p.Valid sh ∧ (p.addr ≠ 0 → 1 ≤ sh.strong p.addr) := by
  rcases kept with own | ⟨n, i, debt⟩ | ⟨c, since, pos, walk⟩
  · have valid : p.Valid sh := inv.fine _ own
    exact ⟨valid, fun real =>
      inv.owned own (by simp [Token.claims]) (by simp [Token.debtor]) real valid.word⟩
  · exact ⟨inv.fine _ debt, inv.indebted bound debt⟩
  · exact ⟨inv.fine _ walk, inv.walking walk⟩

/-- A protection whose slot has been paid has a count. -/
theorem LedgerInv.unpaid {n i} (inv : LedgerInv sh M) (held : .pending p n i ∈ M)
    (other : sh.slot n i ≠ p.addr) (real : p.addr ≠ 0)
    : 1 ≤ sh.strong p.addr := by
  refine inv.owned held (by simp [Token.claims]) ?_ real (inv.fine _ held)
  simp only [Token.debtor, ↓reduceIte, Option.some.injEq, Prod.mk.injEq]
  rintro m j ⟨rfl, rfl⟩
  exact other

/-- An object with a count exists. -/
theorem Shared.of_strong (counted : 1 ≤ sh.strong a)
    : ∃ o, sh.heap a = some o ∧ o.strong = sh.strong a := by
  cases eq : sh.heap a with
  | none => simp [strong, eq] at counted
  | some o => exact ⟨o, rfl, by simp [strong, eq]⟩

end invariant

end ArcSwap
