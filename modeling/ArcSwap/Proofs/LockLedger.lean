import ArcSwap.Proofs.Accounting
import ArcSwap.Proofs.LockSteps

/-! The ledger of strong counts under the strategy `RwLock<()>`. A pointer that was read under the
lock has no count of its own yet; the storage keeps its object, or whoever has taken it out and
still waits for the lock.
-/

namespace ArcSwap.Locked

open Bags Finset

-----------------------------------------------------------------------------------------
-- Tokens
-----------------------------------------------------------------------------------------

inductive Token
  /-- A count. -/
  | own (p : Ptr)
  /-- The count of what was taken out of a storage by somebody who waits for its readers. -/
  | retired (c : CellId) (p : Ptr)
  /-- The lock of a storage, and what has been read under it. -/
  | shared (c : CellId) (seen : Option Ptr)
  | exclusive (c : CellId) (seen : Option Ptr)
  /-- The destructor of the object is running. -/
  | dying (p : Ptr)

abbrev Tokens := Multiset Token

/-- The pointer whose count the token is. -/
def Token.keeps : Token → Option Ptr
  | .own p | .retired _ p => some p
  | _ => none

/-- The storage whose lock the token is, and what has been read under it. -/
def Token.sees : Token → Option (CellId × Ptr)
  | .shared c seen | .exclusive c seen => seen.map fun p => (c, p)
  | _ => none

def Token.claims (a : Nat) (tok : Token) : Nat :=
  if tok.keeps.map Ptr.addr = some a then 1 else 0

def Token.dyings (a : Nat) : Token → Nat
  | .dying p => if p.addr = a then 1 else 0
  | _ => 0

def Token.shares (c : CellId) : Token → Nat
  | .shared d _ => if d = c then 1 else 0
  | _ => 0

def Token.excludes (c : CellId) : Token → Nat
  | .exclusive d _ => if d = c then 1 else 0
  | _ => 0

/-- The token is a lock. -/
def Token.isLock : Token → Bool
  | .shared _ _ | .exclusive _ _ => true
  | _ => false

section tokens

variable (a : Nat) (c : CellId) (p : Ptr)

@[simp]
theorem Token.claims_own : (Token.own p).claims a = if p.addr = a then 1 else 0 := by
  simp [claims, keeps]

@[simp]
theorem Token.claims_retired : (Token.retired c p).claims a = if p.addr = a then 1 else 0 := by
  simp [claims, keeps]

@[simp]
theorem Token.claims_dying : (Token.dying p).claims a = 0 := rfl

@[simp]
theorem Token.dyings_own : (Token.own p).dyings a = 0 := rfl

@[simp]
theorem Token.dyings_retired : (Token.retired c p).dyings a = 0 := rfl

@[simp]
theorem Token.dyings_dying : (Token.dying p).dyings a = if p.addr = a then 1 else 0 := rfl

end tokens

-----------------------------------------------------------------------------------------
-- Counts
-----------------------------------------------------------------------------------------

/-- Every count has its owner: a token or a storage in use. -/
structure Ledger (mem : ArcSwap.Shared) (M : Tokens) : Prop where
  bound : ∀ c, mem.status c ≠ .gone → c < mem.nCells
  fine : ∀ tok ∈ M, ∀ p, tok.keeps = some p → p.Valid mem
  cells : ∀ c, mem.status c = .live → (mem.ptr c).Valid mem
  null : mem.heap 0 = none
  dying : ∀ a, tally (Token.dyings a) M = if (mem.heap a).map Obj.strong = some 0 then 1 else 0
  balanced : ∀ a, a ≠ 0 → mem.strong a = tally (Token.claims a) M + mem.cellsAt a

section ledger

variable {mem mem' : ArcSwap.Shared} {M : Tokens} {tok : Token} {p : Ptr} {c : CellId} {a : Nat}

/-- Locks are no counts. -/
theorem Ledger.lock (lock : tok.isLock = true) : Ledger mem (tok ::ₘ M) ↔ Ledger mem M := by
  have light : tok.keeps = none ∧ ∀ a, tok.dyings a = 0 := by
    cases tok <;> cases lock <;> exact ⟨rfl, fun _ => rfl⟩
  have claims (a) : tok.claims a = 0 := by simp [Token.claims, light.1]
  constructor
  · intro ledger
    refine { ledger with fine := ?_, dying := ?_, balanced := ?_ }
    · exact fun tok' inside => ledger.fine tok' (Multiset.mem_cons_of_mem inside)
    · exact fun a => by simpa [light.2 a] using ledger.dying a
    · exact fun a real => by simpa [claims a] using ledger.balanced a real
  · intro ledger
    refine { ledger with fine := ?_, dying := ?_, balanced := ?_ }
    · intro tok' inside p keeps
      rcases Multiset.mem_cons.mp inside with rfl | inside
      · rw [light.1] at keeps
        cases keeps
      · exact ledger.fine tok' inside p keeps
    · exact fun a => by simpa [light.2 a] using ledger.dying a
    · exact fun a real => by simpa [claims a] using ledger.balanced a real

/-- Who has a count runs no destructor. -/
theorem dyings_cons (keeps : tok.keeps = some p)
    : tally (Token.dyings a) (tok ::ₘ M) = tally (Token.dyings a) M := by
  have none : tok.dyings a = 0 := by
    cases tok <;> cases keeps <;> rfl
  rw [tally_cons, none, Nat.zero_add]

/-- A count is a count, whoever has it. -/
theorem Ledger.exchange {tok' : Token} (keeps : tok.keeps = some p) (keeps' : tok'.keeps = some p)
    (ledger : Ledger mem (tok ::ₘ M))
    : Ledger mem (tok' ::ₘ M) := by
  have claims (a) : tok'.claims a = tok.claims a := by simp [Token.claims, keeps, keeps']
  refine { ledger with fine := ?_, dying := ?_, balanced := ?_ }
  · intro tok₁ inside q keeps₁
    rcases Multiset.mem_cons.mp inside with rfl | inside
    · rw [keeps'] at keeps₁
      exact ledger.fine tok (Multiset.mem_cons_self _ _) q (keeps.trans keeps₁)
    · exact ledger.fine tok₁ (Multiset.mem_cons_of_mem inside) q keeps₁
  · intro a
    rw [dyings_cons keeps', ← dyings_cons keeps]
    exact ledger.dying a
  · intro a real
    have balanced := ledger.balanced a real
    rw [tally_cons] at balanced ⊢
    rw [claims, balanced]

/-- Accesses to other things than objects and storages. -/
theorem Ledger.same (ledger : Ledger mem M) (heap : mem'.heap = mem.heap)
    (cells : mem'.nCells = mem.nCells) (status : mem'.status = mem.status)
    (ptr : mem'.ptr = mem.ptr)
    : Ledger mem' M := by
  have valid {p : Ptr} (valid : p.Valid mem) : p.Valid mem' := by
    refine valid.keep fun o _ there => ?_
    exact ⟨o, by rw [heap, there], rfl⟩
  refine {
    bound := by rw [status, cells]; exact ledger.bound
    fine := fun tok inside p keeps => valid (ledger.fine tok inside p keeps)
    cells := by rw [status, ptr]; exact fun c live => valid (ledger.cells c live)
    null := by rw [heap]; exact ledger.null
    dying := by rw [heap]; exact ledger.dying
    balanced := fun a real => ?_
  }
  have same : mem'.cellsAt a = mem.cellsAt a := by
    simp only [Shared.cellsAt, cells, status, ptr]
  have strong : mem'.strong a = mem.strong a := by
    simp only [Shared.strong, heap]
  rw [same, strong, ledger.balanced a real]

/-- What has a count has an object. -/
theorem Ledger.alive (ledger : Ledger mem M) (inside : tok ∈ M) (keeps : tok.keeps = some p)
    : mem.Alive p := by
  intro real
  obtain ⟨o, there, id⟩ := (ledger.fine tok inside p keeps).object real
  have balanced := ledger.balanced p.addr real
  have claimed : 1 ≤ tally (Token.claims p.addr) M := by
    refine Nat.le_trans ?_ (le_tally _ inside)
    simp [Token.claims, keeps]
  simp only [Shared.strong, there, Option.map_some, Option.getD_some] at balanced
  exact ⟨o, there, id, by omega⟩

theorem Ledger.cellAlive (ledger : Ledger mem M) (live : mem.status c = .live)
    : mem.Alive (mem.ptr c) := by
  intro real
  obtain ⟨o, there, id⟩ := (ledger.cells c live).object real
  have balanced := ledger.balanced _ real
  have stored := Shared.cellsAt_pos ledger.bound ⟨c, live, rfl⟩
  simp only [Shared.strong, there, Option.map_some, Option.getD_some] at balanced
  exact ⟨o, there, id, by omega⟩

/-- Objects keep their names when their counts change. -/
theorem valid_recount {q : Ptr} {b : Nat} {f : Nat → Nat} (valid : q.Valid mem)
    (heap : mem'.heap = mem.count b f)
    : q.Valid mem' := by
  refine valid.keep fun o _ there => ?_
  by_cases same : q.addr = b
  · refine ⟨{ o with strong := f o.strong }, ?_, rfl⟩
    rw [heap, Shared.count, same, Function.update_self, ← same, there]
    rfl
  · exact ⟨o, by simp [heap, Shared.count, same, there], rfl⟩

/-- An object that is alive gets one more count. -/
theorem Ledger.inc (ledger : Ledger mem M) (valid : p.Valid mem) (alive : mem.Alive p)
    : Ledger (mem.after (incAct p)) (.own p ::ₘ M) := by
  by_cases null : p.addr = 0
  · have same : Ledger (mem.after (incAct p)) M := by
      rw [incAct, if_pos null]
      exact ledger.same rfl rfl rfl rfl
    have kept : p.Valid (mem.after (incAct p)) := by
      rw [incAct, if_pos null]
      exact valid.keep fun o _ there => ⟨o, there, rfl⟩
    refine { same with fine := ?_, dying := ?_, balanced := ?_ }
    · intro tok inside q keeps
      rcases Multiset.mem_cons.mp inside with rfl | inside
      · cases keeps
        exact kept
      · exact same.fine tok inside q keeps
    · intro a
      rw [tally_cons, ← same.dying a]
      exact Nat.zero_add _
    · intro a real
      have apart : ¬ p.addr = a := fun eq => real (eq.symm.trans null)
      simp [Token.claims, Token.keeps, apart, same.balanced a real]
  · obtain ⟨o, there, id, counted⟩ := alive null
    rw [incAct, if_neg null]
    have heap : (mem.after (.inc p.addr)).heap = mem.count p.addr (· + 1) := rfl
    have kept {q : Ptr} (valid : q.Valid mem) : q.Valid (mem.after (.inc p.addr)) :=
      valid_recount valid heap
    refine ⟨ledger.bound, ?_, fun c live => kept (ledger.cells c live), ?_, ?_, ?_⟩
    · intro tok inside q keeps
      rcases Multiset.mem_cons.mp inside with rfl | inside
      · cases keeps
        exact kept valid
      · exact kept (ledger.fine tok inside q keeps)
    · simp [heap, Shared.count, Ne.symm null, ledger.null]
    · intro a
      have dying := ledger.dying a
      rw [tally_cons, Token.dyings_own, Nat.zero_add, dying]
      by_cases same : a = p.addr
      · subst same
        have live : o.strong ≠ 0 := by omega
        simp [heap, Shared.count, there, live]
      · simp [heap, Shared.count, same]
    · intro a real
      have balanced := ledger.balanced a real
      have strong := Shared.strong_count (a := a) there heap
      have cells : (mem.after (.inc p.addr)).cellsAt a = mem.cellsAt a := rfl
      rw [strong, cells, tally_cons, Token.claims_own]
      by_cases same : a = p.addr
      · subst same
        simp only [↓reduceIte]
        omega
      · simp only [same, Ne.symm same, ↓reduceIte]
        omega

/-- Nothing is counted for null. -/
theorem Ledger.dropNull (ledger : Ledger mem (.own p ::ₘ M)) (null : p.addr = 0)
    : Ledger mem M := by
  refine { ledger with fine := ?_, dying := ?_, balanced := ?_ }
  · exact fun tok inside => ledger.fine tok (Multiset.mem_cons_of_mem inside)
  · exact fun a => by simpa using ledger.dying a
  · intro a real
    have apart : ¬ p.addr = a := fun eq => real (eq.symm.trans null)
    simpa [apart] using ledger.balanced a real

/-- A count is given back. Whoever gives back the last one runs the destructor. -/
theorem Ledger.dec (ledger : Ledger mem (.own p ::ₘ M)) (real : p.addr ≠ 0)
    : Ledger (mem.after (.dec p.addr))
        (if (mem.heap p.addr).map Obj.strong = some 1 then .dying p ::ₘ M else M) := by
  obtain ⟨o, there, id, counted⟩ := ledger.alive (Multiset.mem_cons_self _ _) rfl real
  have heap : (mem.after (.dec p.addr)).heap = mem.count p.addr (· - 1) := rfl
  have kept {q : Ptr} (valid : q.Valid mem) : q.Valid (mem.after (.dec p.addr)) :=
    valid_recount valid heap
  refine ⟨ledger.bound, ?_, fun c live => kept (ledger.cells c live), ?_, ?_, ?_⟩
  · intro tok inside q keeps
    split at inside
    · rcases Multiset.mem_cons.mp inside with rfl | inside
      · cases keeps
      · exact kept (ledger.fine tok (Multiset.mem_cons_of_mem inside) q keeps)
    · exact kept (ledger.fine tok (Multiset.mem_cons_of_mem inside) q keeps)
  · simp [heap, Shared.count, Ne.symm real, ledger.null]
  · intro a
    have dying := ledger.dying a
    rw [tally_cons, Token.dyings_own, Nat.zero_add] at dying
    by_cases same : a = p.addr
    · subst same
      have live : ¬ o.strong = 0 := by omega
      simp only [there, Option.map_some, Option.some.injEq, live, ↓reduceIte] at dying
      by_cases one : o.strong = 1
      · simp [heap, Shared.count, there, one, dying]
      · have some : ¬ o.strong - 1 = 0 := by omega
        simp [heap, Shared.count, there, one, some, dying]
    · have other : ¬ p.addr = a := Ne.symm same
      split <;> simp [heap, Shared.count, same, other, dying]
  · intro a real'
    have balanced := ledger.balanced a real'
    have strong := Shared.strong_count (a := a) there heap
    have cells : (mem.after (.dec p.addr)).cellsAt a = mem.cellsAt a := rfl
    have claims : tally (Token.claims a)
          (if (mem.heap p.addr).map Obj.strong = some 1 then .dying p ::ₘ M else M)
        = tally (Token.claims a) M := by
      split <;> simp
    rw [tally_cons, Token.claims_own] at balanced
    rw [strong, cells, claims]
    by_cases same : a = p.addr
    · subst same
      simp only [↓reduceIte] at balanced ⊢
      omega
    · simp only [same, Ne.symm same, ↓reduceIte] at balanced ⊢
      omega

/-- Nobody has a count of an object whose destructor is running, so it can be given back. -/
theorem Ledger.dealloc (ledger : Ledger mem (.dying p ::ₘ M))
    : Ledger (mem.after (.dealloc p.addr)) M := by
  have dead := ledger.dying p.addr
  simp only [tally_cons, Token.dyings_dying, ↓reduceIte] at dead
  have zero : (mem.heap p.addr).map Obj.strong = some 0 := by
    by_contra other
    rw [if_neg other] at dead
    omega
  rw [if_pos zero] at dead
  have real : p.addr ≠ 0 := by
    intro null
    rw [null, ledger.null] at zero
    cases zero
  have empty := ledger.balanced p.addr real
  simp only [Shared.strong, zero, Option.getD_some, tally_cons, Token.claims_dying] at empty
  have kept {q : Ptr} (valid : q.Valid mem) (other : q.addr ≠ 0 → q.addr ≠ p.addr)
      : q.Valid (mem.after (.dealloc p.addr)) :=
    valid.keep fun o real there =>
      ⟨o, by simp [ArcSwap.Shared.after, ArcSwap.Act.exec, other real, there], rfl⟩
  refine ⟨ledger.bound, ?_, ?_, ?_, ?_, ?_⟩
  · intro tok inside q keeps
    refine kept (ledger.fine tok (Multiset.mem_cons_of_mem inside) q keeps) fun _ same => ?_
    have claimed := le_tally (Token.claims p.addr) inside
    simp only [Token.claims, keeps, Option.map_some, same, ↓reduceIte] at claimed
    omega
  · intro c live
    refine kept (ledger.cells c live) fun _ same => ?_
    have stored := Shared.cellsAt_pos ledger.bound ⟨c, live, same⟩
    omega
  · simp [ArcSwap.Shared.after, ArcSwap.Act.exec, Ne.symm real, ledger.null]
  · intro a
    have dying := ledger.dying a
    by_cases same : a = p.addr
    · subst same
      simp only [ArcSwap.Shared.after, ArcSwap.Act.exec, Function.update_self,
        Option.map_none, reduceCtorEq, ↓reduceIte]
      omega
    · simpa [ArcSwap.Shared.after, ArcSwap.Act.exec, same, Ne.symm same] using dying
  · intro a real'
    have balanced := ledger.balanced a real'
    have cells : (mem.after (.dealloc p.addr)).cellsAt a = mem.cellsAt a := rfl
    rw [tally_cons, Token.claims_dying, Nat.zero_add] at balanced
    rw [cells]
    by_cases same : a = p.addr
    · subst same
      have gone : (mem.after (.dealloc p.addr)).strong p.addr = 0 := by
        simp [Shared.strong, ArcSwap.Shared.after, ArcSwap.Act.exec]
      omega
    · have strong : (mem.after (.dealloc p.addr)).strong a = mem.strong a := by
        simp [Shared.strong, ArcSwap.Shared.after, ArcSwap.Act.exec, same]
      rw [strong, balanced]

/-- A new object has one handle. -/
theorem Ledger.newObj {ty : Nat} (ledger : Ledger mem M) (free : mem.heap a = none) (real : a ≠ 0)
    (word : a ≠ NONE)
    : Ledger (mem.after (.newObj a ty)) (.own ⟨a, ty, mem.nextId⟩ ::ₘ M) := by
  have kept {q : Ptr} (valid : q.Valid mem) : q.Valid (mem.after (.newObj a ty)) := by
    refine valid.keep fun o real there => ⟨o, ?_, rfl⟩
    have other : q.addr ≠ a := by
      rintro rfl
      rw [free] at there
      cases there
    simp [ArcSwap.Shared.after, ArcSwap.Act.exec, other, there]
  refine ⟨ledger.bound, ?_, fun c live => kept (ledger.cells c live), ?_, ?_, ?_⟩
  · intro tok inside q keeps
    rcases Multiset.mem_cons.mp inside with rfl | inside
    · cases keeps
      exact ⟨word, fun null => absurd null real, fun _ => ⟨⟨mem.nextId, ty, 1⟩, by
        simp [ArcSwap.Shared.after, ArcSwap.Act.exec], rfl⟩⟩
    · exact kept (ledger.fine tok inside q keeps)
  · simp [ArcSwap.Shared.after, ArcSwap.Act.exec, Ne.symm real, ledger.null]
  · intro b
    have dying := ledger.dying b
    by_cases same : b = a
    · subst same
      rw [free] at dying
      simpa [ArcSwap.Shared.after, ArcSwap.Act.exec] using dying
    · simpa [ArcSwap.Shared.after, ArcSwap.Act.exec, same] using dying
  · intro b real'
    have balanced := ledger.balanced b real'
    have cells : (mem.after (.newObj a ty)).cellsAt b = mem.cellsAt b := rfl
    rw [cells, tally_cons, Token.claims_own]
    by_cases same : b = a
    · subst same
      have one : (mem.after (.newObj b ty)).strong b = 1 := by
        simp [Shared.strong, ArcSwap.Shared.after, ArcSwap.Act.exec]
      have none : mem.strong b = 0 := by simp [Shared.strong, free]
      simp only [↓reduceIte]
      omega
    · have strong : (mem.after (.newObj a ty)).strong b = mem.strong b := by
        simp [Shared.strong, ArcSwap.Shared.after, ArcSwap.Act.exec, same]
      simp only [Ne.symm same, ↓reduceIte]
      omega

theorem Ledger.newNull {ty : Nat} (ledger : Ledger mem M)
    : Ledger mem (.own ⟨0, ty, 0⟩ ::ₘ M) := by
  refine { ledger with fine := ?_, dying := ?_, balanced := ?_ }
  · intro tok inside q keeps
    rcases Multiset.mem_cons.mp inside with rfl | inside
    · cases keeps
      exact ⟨(by decide : 0 ≠ NONE), fun _ => rfl, fun real => absurd rfl real⟩
    · exact ledger.fine tok inside q keeps
  · exact fun a => by simpa using ledger.dying a
  · intro a real
    simpa [Ne.symm real] using ledger.balanced a real

/-- A container takes over a count. -/
theorem Ledger.newCell {useFast : Bool} (ledger : Ledger mem (.own p ::ₘ M))
    : Ledger (mem.after (.newCell p a useFast)) M := by
  have kept {q : Ptr} (valid : q.Valid mem) : q.Valid (mem.after (.newCell p a useFast)) :=
    valid.keep fun o _ there => ⟨o, there, rfl⟩
  refine ⟨?_, ?_, ?_, ledger.null, ?_, ?_⟩
  · intro c used
    by_cases new : c = mem.nCells
    · exact new ▸ Nat.lt_succ_self _
    · refine Nat.lt_succ_of_lt (ledger.bound c ?_)
      simpa [ArcSwap.Shared.after, ArcSwap.Act.exec, new] using used
  · exact fun tok inside q keeps =>
      kept (ledger.fine tok (Multiset.mem_cons_of_mem inside) q keeps)
  · intro c live
    by_cases new : c = mem.nCells
    · have ptr : (mem.after (.newCell p a useFast)).ptr c = p := by
        simp [ArcSwap.Shared.after, ArcSwap.Act.exec, new]
      rw [ptr]
      exact kept (ledger.fine _ (Multiset.mem_cons_self _ _) p rfl)
    · have ptr : (mem.after (.newCell p a useFast)).ptr c = mem.ptr c := by
        simp [ArcSwap.Shared.after, ArcSwap.Act.exec, new]
      rw [ptr]
      refine kept (ledger.cells c ?_)
      simpa [ArcSwap.Shared.after, ArcSwap.Act.exec, new] using live
  · exact fun b => (dyings_cons rfl).symm.trans (ledger.dying b)
  · intro b real
    have balanced := ledger.balanced b real
    have stored : ((ArcSwap.Act.newCell p a useFast).exec mem).cellsAt b
        = mem.cellsAt b + (if p.addr = b then 1 else 0) := Shared.cellsAt_newCell
    have cells : (mem.after (.newCell p a useFast)).cellsAt b
        = mem.cellsAt b + (if p.addr = b then 1 else 0) := stored
    have strong : (mem.after (.newCell p a useFast)).strong b = mem.strong b := rfl
    rw [tally_cons, Token.claims_own] at balanced
    rw [cells, strong]
    omega

/-- The count of a storage that is closed belongs to its owner, until it has waited. -/
theorem Ledger.closeCell (ledger : Ledger mem M) (live : mem.status c = .live)
    : Ledger (mem.after (.closeCell c a)) (.retired c (mem.ptr c) ::ₘ M) := by
  have kept {q : Ptr} (valid : q.Valid mem) : q.Valid (mem.after (.closeCell c a)) :=
    valid.keep fun o _ there => ⟨o, there, rfl⟩
  refine ⟨?_, ?_, ?_, ledger.null, ?_, ?_⟩
  · intro d used
    by_cases same : d = c
    · exact same ▸ ledger.bound c (by simp [live])
    · exact ledger.bound d (by simpa [ArcSwap.Shared.after, ArcSwap.Act.exec, same] using used)
  · intro tok inside q keeps
    rcases Multiset.mem_cons.mp inside with rfl | inside
    · cases keeps
      exact kept (ledger.cells c live)
    · exact kept (ledger.fine tok inside q keeps)
  · intro d used
    by_cases same : d = c
    · simp [ArcSwap.Shared.after, ArcSwap.Act.exec, same] at used
    · exact kept (ledger.cells d
        (by simpa [ArcSwap.Shared.after, ArcSwap.Act.exec, same] using used))
  · exact fun b => (dyings_cons rfl).trans (ledger.dying b)
  · intro b real
    have balanced := ledger.balanced b real
    have others (d) (other : d ≠ c)
        : (mem.after (.closeCell c a)).status d = mem.status d
          ∧ (mem.after (.closeCell c a)).ptr d = mem.ptr d := by
      simp [ArcSwap.Shared.after, ArcSwap.Act.exec, other]
    have cells : (mem.after (.closeCell c a)).cellsAt b + _ = _ :=
      Shared.cellsAt_change (ledger.bound c (by simp [live])) rfl others
    have closed : (mem.after (.closeCell c a)).status c = .dropping := by
      simp [ArcSwap.Shared.after, ArcSwap.Act.exec]
    have strong : (mem.after (.closeCell c a)).strong b = mem.strong b := rfl
    rw [closed] at cells
    simp only [live, true_and, reduceCtorEq, false_and, ↓reduceIte] at cells
    rw [strong, tally_cons, Token.claims_retired]
    omega

/-- What a storage has held takes the place of what is written to it. -/
theorem Ledger.write {op : Nat} (ledger : Ledger mem (.own p ::ₘ M)) (live : mem.status c = .live)
    : Ledger (mem.after (.write c op p)) (.own (mem.ptr c) ::ₘ M) := by
  have kept {q : Ptr} (valid : q.Valid mem) : q.Valid (mem.after (.write c op p)) :=
    valid.keep fun o _ there => ⟨o, there, rfl⟩
  refine ⟨ledger.bound, ?_, ?_, ledger.null, ?_, ?_⟩
  · intro tok inside q keeps
    rcases Multiset.mem_cons.mp inside with rfl | inside
    · cases keeps
      exact kept (ledger.cells c live)
    · exact kept (ledger.fine tok (Multiset.mem_cons_of_mem inside) q keeps)
  · intro d used
    by_cases same : d = c
    · have ptr : (mem.after (.write c op p)).ptr d = p := by
        simp [ArcSwap.Shared.after, ArcSwap.Act.exec, same]
      rw [ptr]
      exact kept (ledger.fine _ (Multiset.mem_cons_self _ _) p rfl)
    · have ptr : (mem.after (.write c op p)).ptr d = mem.ptr d := by
        simp [ArcSwap.Shared.after, ArcSwap.Act.exec, same]
      rw [ptr]
      exact kept (ledger.cells d used)
  · exact fun b => (dyings_cons rfl).trans ((dyings_cons rfl).symm.trans (ledger.dying b))
  · intro b real
    have balanced := ledger.balanced b real
    have others (d) (other : d ≠ c)
        : (mem.after (.write c op p)).status d = mem.status d
          ∧ (mem.after (.write c op p)).ptr d = mem.ptr d := by
      simp [ArcSwap.Shared.after, ArcSwap.Act.exec, other]
    have cells : (mem.after (.write c op p)).cellsAt b + _ = _ :=
      Shared.cellsAt_change (ledger.bound c (by simp [live])) rfl others
    have ptr : (mem.after (.write c op p)).ptr c = p := by
      simp [ArcSwap.Shared.after, ArcSwap.Act.exec]
    have status : (mem.after (.write c op p)).status c = .live := live
    have strong : (mem.after (.write c op p)).strong b = mem.strong b := rfl
    rw [tally_cons, Token.claims_own] at balanced
    rw [ptr, status] at cells
    simp only [live, true_and] at cells
    rw [strong, tally_cons, Token.claims_own]
    omega

/-- The memory of a container that is closed holds no count. -/
theorem Ledger.freeCell (ledger : Ledger mem M) (closed : mem.status c ≠ .live)
    : Ledger (mem.after (.freeCell c)) M := by
  have status (d) : (mem.after (.freeCell c)).status d = .live ↔ mem.status d = .live := by
    by_cases same : d = c
    · subst same
      simp [ArcSwap.Shared.after, ArcSwap.Act.exec, closed]
    · simp [ArcSwap.Shared.after, ArcSwap.Act.exec, same]
  have kept {q : Ptr} (valid : q.Valid mem) : q.Valid (mem.after (.freeCell c)) :=
    valid.keep fun o _ there => ⟨o, there, rfl⟩
  refine ⟨?_, ?_, ?_, ledger.null, ledger.dying, ?_⟩
  · intro d used
    by_cases same : d = c
    · simp [ArcSwap.Shared.after, ArcSwap.Act.exec, same] at used
    · exact ledger.bound d (by simpa [ArcSwap.Shared.after, ArcSwap.Act.exec, same] using used)
  · exact fun tok inside q keeps => kept (ledger.fine tok inside q keeps)
  · exact fun d live => kept (ledger.cells d ((status d).mp live))
  · intro b real
    have cells : (mem.after (.freeCell c)).cellsAt b = mem.cellsAt b := by
      refine sum_congr rfl fun d _ => if_congr ?_ rfl rfl
      exact and_congr_left fun _ => status d
    rw [cells]
    exact ledger.balanced b real

end ledger

end ArcSwap.Locked
