import ArcSwap.Proofs.Ledger

/-! One step of the debt protocol keeps the ledger of strong counts. -/

namespace ArcSwap

open Assignments Bags

-----------------------------------------------------------------------------------------
-- The ledger under single accesses
-----------------------------------------------------------------------------------------

section accesses

variable {sh sh' : Shared} {M M' : Tokens} {a : Nat}

/-- Nothing changes at the address. -/
theorem Balanced.keep (base : Balanced sh M a) (strong : sh'.strong a = sh.strong a)
    (slots : sh'.slotsAt a = sh.slotsAt a) (cells : sh'.cellsAt a = sh.cellsAt a)
    (gifts : sh'.giftsAt a = sh.giftsAt a)
    (tokens : tally (Token.claims a) M' = tally (Token.claims a) M)
    : Balanced sh' M' a := by
  rw [Balanced, strong, slots, cells, gifts, tokens]
  exact base

theorem Balanced.settle (base : Balanced sh M a) {n i} {p : Ptr} (there : sh.slot n i = p.addr)
    (slot : sh.slot n i ≠ NONE → n < sh.nNodes ∧ i ≤ HELPING) (word : a ≠ NONE)
    (tokens
      : tally (Token.claims a) M = (if p.addr = a then 1 else 0) + tally (Token.claims a) M')
    : Balanced ((Act.settle n i).exec sh) M' a := by
  have slots
      : ((Act.settle n i).exec sh).slotsAt a + (if p.addr = a then 1 else 0) = sh.slotsAt a := by
    by_cases occupied : sh.slot n i = NONE
    · have other : p.addr ≠ a := fun eq => word (by rw [← eq, ← there, occupied])
      have same : set₂ sh.slot n i NONE = sh.slot := by
        funext m j
        by_cases here : m = n ∧ j = i
        · simp [set₂, here, occupied]
        · simp [set₂, here]
      rw [if_neg other, Act.exec, same, Nat.add_zero]
    · obtain ⟨node, fits⟩ := slot occupied
      have change := Shared.slotsAt_change (a := a) ((Act.settle n i).exec sh) node fits rfl
        fun m j other => by simp [Act.exec, set₂, other]
      simpa [Act.exec, set₂, word.symm, there] using change
  have base : sh.strong a + sh.slotsAt a = tally (Token.claims a) M + sh.cellsAt a + sh.giftsAt a :=
    base
  show sh.strong a + ((Act.settle n i).exec sh).slotsAt a
    = tally (Token.claims a) M' + sh.cellsAt a + sh.giftsAt a
  omega

theorem Balanced.register (base : Balanced sh M a) {n i p load} (node : n < sh.nNodes)
    (fits : i ≤ HELPING) (empty : sh.slot n i = NONE) (word : a ≠ NONE)
    (tokens
      : tally (Token.claims a) M' = (if p.addr = a then 1 else 0) + tally (Token.claims a) M)
    : Balanced ((Act.register n i p load).exec sh) M' a := by
  have slots := Shared.slotsAt_change (a := a) ((Act.register n i p load).exec sh) node fits
    rfl fun m j other => by simp [Act.exec, set₂, other]
  simp only [empty, word.symm, ↓reduceIte, Act.exec, set₂, and_self] at slots
  have base : sh.strong a + sh.slotsAt a = tally (Token.claims a) M + sh.cellsAt a + sh.giftsAt a :=
    base
  show sh.strong a + ((Act.register n i p load).exec sh).slotsAt a
    = tally (Token.claims a) M' + sh.cellsAt a + sh.giftsAt a
  simp only [Act.exec]
  omega

theorem Balanced.goIdle (base : Balanced sh M a) {n} (node : n < sh.nNodes)
    (tokens
      : tally (Token.claims a) M'
        = (if (sh.gift n).map Ptr.addr = some a then 1 else 0) + tally (Token.claims a) M)
    : Balanced ((Act.goIdle n).exec sh) M' a := by
  have gifts := Shared.giftsAt_change (a := a) ((Act.goIdle n).exec sh) node rfl
    fun m other => by simp [Act.exec, other]
  simp only [Act.exec, Function.update_self, Option.map_none, reduceCtorEq, ↓reduceIte] at gifts
  have base : sh.strong a + sh.slotsAt a = tally (Token.claims a) M + sh.cellsAt a + sh.giftsAt a :=
    base
  show sh.strong a + sh.slotsAt a
    = tally (Token.claims a) M' + sh.cellsAt a + ((Act.goIdle n).exec sh).giftsAt a
  simp only [Act.exec]
  omega

theorem Balanced.handOver (base : Balanced sh M a) {who self mine given} (node : who < sh.nNodes)
    (empty : sh.gift who = none)
    (tokens
      : tally (Token.claims a) M
        = (if given.val.addr = a then 1 else 0) + tally (Token.claims a) M')
    : Balanced ((Act.handOver who self mine given).exec sh) M' a := by
  have gifts := Shared.giftsAt_change (a := a) ((Act.handOver who self mine given).exec sh)
    node rfl fun m other => by simp [Act.exec, other]
  simp only [empty, Act.exec, Function.update_self, Option.map_none, Option.map_some, reduceCtorEq,
    ↓reduceIte, Option.some.injEq] at gifts
  have base : sh.strong a + sh.slotsAt a = tally (Token.claims a) M + sh.cellsAt a + sh.giftsAt a :=
    base
  show sh.strong a + sh.slotsAt a = tally (Token.claims a) M' + sh.cellsAt a
    + ((Act.handOver who self mine given).exec sh).giftsAt a
  simp only [Act.exec]
  omega

/-- A storage in use changes, or is not in use any more. -/
theorem Balanced.cell (base : Balanced sh M a) {c} (bound : c < sh.nCells)
    (cells : sh'.nCells = sh.nCells) (live : sh.status c = .live)
    (others : ∀ d, d ≠ c → sh'.status d = sh.status d ∧ sh'.ptr d = sh.ptr d)
    (strong : sh'.strong a = sh.strong a) (slots : sh'.slotsAt a = sh.slotsAt a)
    (gifts : sh'.giftsAt a = sh.giftsAt a)
    (tokens
      : tally (Token.claims a) M'
          + (if sh'.status c = .live ∧ (sh'.ptr c).addr = a then 1 else 0)
        = (if (sh.ptr c).addr = a then 1 else 0) + tally (Token.claims a) M)
    : Balanced sh' M' a := by
  have change := Shared.cellsAt_change (a := a) bound cells others
  simp only [live, true_and] at change
  rw [Balanced, strong, slots, gifts]
  rw [Balanced] at base
  omega

theorem Balanced.newCell (base : Balanced sh M a) {p b useFast}
    (tokens
      : tally (Token.claims a) M = (if p.addr = a then 1 else 0) + tally (Token.claims a) M')
    : Balanced ((Act.newCell p b useFast).exec sh) M' a := by
  have cells : ((Act.newCell p b useFast).exec sh).cellsAt a
      = sh.cellsAt a + (if p.addr = a then 1 else 0) := Shared.cellsAt_newCell
  have base : sh.strong a + sh.slotsAt a = tally (Token.claims a) M + sh.cellsAt a + sh.giftsAt a :=
    base
  show sh.strong a + sh.slotsAt a
    = tally (Token.claims a) M' + ((Act.newCell p b useFast).exec sh).cellsAt a + sh.giftsAt a
  omega

/-- The count of an object changes. -/
theorem Balanced.count (base : Balanced sh M a) {f b o} (there : sh.heap b = some o)
    (heap : sh'.heap = sh.count b f) (slots : sh'.slotsAt a = sh.slotsAt a)
    (cells : sh'.cellsAt a = sh.cellsAt a) (gifts : sh'.giftsAt a = sh.giftsAt a)
    (tokens
      : a = b
        → f (sh.strong b) + tally (Token.claims b) M
          = sh.strong b + tally (Token.claims b) M')
    (others : a ≠ b → tally (Token.claims a) M' = tally (Token.claims a) M)
    : Balanced sh' M' a := by
  have strong := Shared.strong_count (a := a) there heap
  rw [Balanced, strong, slots, cells, gifts]
  rw [Balanced] at base
  split
  · rename_i eq
    subst eq
    have tokens := tokens rfl
    omega
  · rw [others ‹_›]
    exact base

end accesses

section step

variable {sh : Shared} {r old new : Tokens} {act : Act}

/-- A destructor runs when the count has reached 0, and no other one runs then. -/
theorem LedgerInv.dead {M : Tokens} {p} (inv : LedgerInv sh (.dying p ::ₘ M))
    : (sh.heap p.addr).map Obj.strong = some 0 ∧ tally (Token.dyings p.addr) M = 0 := by
  have dying := inv.dying p.addr
  rw [tally_cons, Token.dyings, if_pos rfl] at dying
  split at dying
  · exact ⟨‹_›, by omega⟩
  · omega

/-- The transaction that a helper ends has no replacement yet. -/
theorem TxInv.ungiven {M : Tokens} (inv : TxInv sh M) {n} (gen : tagOf (sh.control n) = GEN_TAG)
    : sh.gift n = none := by
  obtain ⟨_, d, _, _, tx⟩ := inv.sessions.tx gen
  rcases tx.control with ⟨_, empty⟩ | ⟨tag, _⟩
  · exact empty
  · rw [gen] at tag
    cases tag

/-- A transaction that is not the reader's any more has a replacement. -/
theorem InTx.given {n c gen} (tx : InTx sh n c gen) (other : sh.control n ≠ gen)
    : ∃ g, sh.gift n = some g := by
  rcases tx.control with ⟨same, _⟩ | ⟨_, given⟩
  · exact absurd same other
  · exact Option.isSome_iff_exists.mp given

/-- A step keeps both sides of the ledger equal. -/
theorem ProtoStep.balanced (step : ProtoStep sh r old act new) (list : sh.ListOk)
    (inv : TxInv sh old) (env : EnvInv sh old) (ledger : LedgerInv sh old) {a : Nat}
    (real : a ≠ 0) (word : a ≠ NONE)
    : Balanced (act.exec sh) new a := by
  have base := ledger.balanced a real word
  have bound := inv.cells.bound
  have sess := inv.sessions
  have node {n ses} (inside : .session n ses ∈ old) : n < sh.nNodes :=
    list.bound (inv.walks.linked n ses inside)
  have slot {n i} (occupied : sh.slot n i ≠ NONE) : n < sh.nNodes ∧ i ≤ HELPING :=
    (inv.walks.slots n i occupied).imp_left list.bound
  have object {p} (kept : Kept p old) (real : p.addr ≠ 0)
      : ∃ o, sh.heap p.addr = some o ∧ 1 ≤ sh.strong p.addr := by
    have counted := (ledger.kept bound kept).2 real
    obtain ⟨o, there, _⟩ := Shared.of_strong counted
    exact ⟨o, there, counted⟩
  have frame {tok} (inside : tok ∈ r) : tok ∈ old := step.frame inside
  cases step with
  | quiet quiet => cases act <;> first | exact base | cases quiet
  | newNode =>
      exact base.keep rfl (Shared.slotsAt_newNode word) rfl Shared.giftsAt_newNode rfl
  | @alloc b ty free =>
      by_cases eq : a = b
      · subst eq
        have none : sh.strong a = 0 := by simp [Shared.strong, free]
        have one : (Act.newObj a ty |>.exec sh).strong a = 1 := by simp [Shared.strong, Act.exec]
        rw [Balanced, none] at base
        show ((Act.newObj a ty).exec sh).strong a + sh.slotsAt a
          = tally (Token.claims a) _ + sh.cellsAt a + sh.giftsAt a
        simp only [one, tally_cons, Token.claims, ↓reduceIte]
        omega
      · refine base.keep ?_ rfl rfl rfl ?_
        · simp [Shared.strong, Act.exec, eq]
        · simp [Token.claims, Ne.symm eq]
  | null | decNull null =>
      exact base.keep rfl rfl rfl rfl (by simp_all [Token.claims, real.symm])
  | @inc p kept =>
      unfold incAct
      split
      · rename_i null
        exact base.keep rfl rfl rfl rfl (by simp [Token.claims, null, real.symm])
      · obtain ⟨o, there, _⟩ := object (kept.mono frame) ‹_›
        refine base.count there rfl rfl rfl rfl ?_ ?_
        · rintro rfl
          simp [Token.claims]
          omega
        · exact fun other => by simp [Token.claims, Ne.symm other]
  | @decLast p here | @decMore p here =>
      obtain ⟨o, there, counted⟩ := object (.inl (Multiset.mem_cons_self _ _)) here
      refine base.count (f := (· - 1)) there rfl rfl rfl rfl ?_ ?_
      · rintro rfl
        simp [Token.claims]
        omega
      · exact fun other => by simp [Token.claims, Ne.symm other]
  | @dealloc p =>
      refine base.keep ?_ rfl rfl rfl (by simp [Token.claims])
      have dead := ledger.dead.1
      by_cases eq : a = p.addr
      · subst eq
        simp [Shared.strong, Act.exec, dead]
      · simp [Shared.strong, Act.exec, eq]
  | @newCell p =>
      exact base.newCell (by simp [Token.claims])
  | @closeCell c b live =>
      refine base.cell (bound c (by simp [live])) rfl live ?_ rfl rfl rfl ?_
      · exact fun d other => by simp [Act.exec, other]
      · simp [Act.exec, Token.claims]
  | @freeCell c =>
      have dropping := inv.cells.of_closed
      refine base.keep rfl rfl (Finset.sum_congr rfl fun d _ => ?_) rfl (by simp [Token.claims])
      by_cases eq : d = c
      · simp [Act.exec, eq, dropping]
      · simp [Act.exec, eq]
  | @write c op q p live same =>
      refine base.cell (bound c (by simp [live])) rfl live ?_ rfl rfl rfl ?_
      · exact fun d other => by simp [Act.exec, other]
      · simp [Act.exec, Token.claims, live, same]
        omega
  | settle there | payBack there | ownPaid there | unusedPaid there | paid there =>
      exact base.settle there slot word (by simp [Token.claims])
  | register =>
      simp only [sessions_session] at sess
      obtain ⟨_, fast, empty⟩ := sess.head
      exact base.register (node (Multiset.mem_cons_self _ _)) (Nat.le_of_lt fast) empty word
        (by simp [Token.claims])
  | fill =>
      simp only [sessions_session] at sess
      exact base.register (node (Multiset.mem_cons_self _ _)) (Nat.le_refl _) sess.head.2 word
        (by simp [Token.claims])
  | @unhelped n c gen p same =>
      simp only [sessions_session, sessions_pending] at sess
      have empty := inv.ungiven (same ▸ sess.head.1.tag)
      exact base.goIdle (node (Multiset.mem_cons_self _ _)) (by simp [Token.claims, empty])
  | helped other envelope gift =>
      simp only [sessions_session] at sess
      obtain ⟨given, eq⟩ := sess.head.1.given other
      exact base.goIdle (node (Multiset.mem_cons_self _ _)) (by simp [Token.claims, gift, eq])
  | @readEnvelope n c p e g g' same prov =>
      have nodes := env.nodes
      simp only [sessions_session, sessions_own] at nodes
      have like : g'.addr = g.addr := same.trans nodes.head.2.1
      exact base.keep rfl rfl rfl rfl (by simp [Token.claims, like])
  | confirmFast live same => exact base.keep rfl rfl rfl rfl (by simp [Token.claims, same])
  | adopt | unusedWasPaid =>
      exact base.keep rfl rfl rfl rfl (by simp [Token.claims, Shared.rebind])
  | @handOver c p since h their mine g same =>
      have ok : (Pos.space h their).Ok sh c :=
        inv.walks.pos c p since _ (Multiset.mem_cons_self _ _)
      refine base.handOver (list.bound ok.1.who) (inv.ungiven (same ▸ ok.1.tag)) ?_
      simp only [tally_cons, Token.claims]
      omega
  | _ => exact base.keep rfl rfl rfl rfl (by simp [Token.claims])

/-- Objects with a count stay where they are. -/
theorem ProtoStep.valid (step : ProtoStep sh r old act new) (ledger : LedgerInv sh old) {p : Ptr}
    (valid : p.Valid sh) (counted : p.addr ≠ 0 → 1 ≤ sh.strong p.addr)
    : p.Valid (act.exec sh) := by
  have count (b) (f : Nat → Nat)
      : ∀ o, p.addr ≠ 0 → sh.heap p.addr = some o
          → ∃ o', sh.count b f p.addr = some o' ∧ o'.id = o.id := by
    intro o _ here
    by_cases eq : p.addr = b
    · subst eq
      exact ⟨{ o with strong := f o.strong }, by simp [Shared.count, here], rfl⟩
    · exact ⟨o, by simp [Shared.count, eq, here], rfl⟩
  cases step with
  | quiet quiet =>
      cases act <;> first | exact ⟨valid.word, valid.null, valid.object⟩ | cases quiet
  | inc =>
      unfold incAct
      split
      · exact valid
      · exact valid.keep (count _ (· + 1))
  | decLast | decMore => exact valid.keep (count _ (· - 1))
  | @alloc b ty free =>
      refine valid.keep fun o _ here => ?_
      have other : p.addr ≠ b := by
        rintro rfl
        rw [free] at here
        cases here
      exact ⟨o, by simp [Act.exec, other, here], rfl⟩
  | @dealloc q =>
      refine valid.keep fun o real here => ?_
      have other : p.addr ≠ q.addr := by
        intro eq
        have dead := ledger.dead.1
        have counted := counted real
        rw [eq, Shared.strong, dead] at counted
        exact absurd counted (by simp)
      exact ⟨o, by simp [Act.exec, other, here], rfl⟩
  | _ => exact ⟨valid.word, valid.null, valid.object⟩

/-- No object is ever at the null address, or at the word of an empty slot. -/
theorem ProtoStep.vacant (step : ProtoStep sh r old act new) {a} (free : sh.heap a = none)
    (word : a = 0 ∨ a = NONE)
    : (act.exec sh).heap a = none := by
  have count (b) (f : Nat → Nat) : sh.count b f a = none := by
    by_cases eq : a = b
    · subst eq
      simp [Shared.count, free]
    · simp [Shared.count, eq, free]
  cases step with
  | quiet quiet => cases act <;> first | exact free | cases quiet
  | inc =>
      unfold incAct
      split
      · exact free
      · exact count _ (· + 1)
  | decLast | decMore => exact count _ (· - 1)
  | @alloc b ty _ real other =>
      have other : a ≠ b := by
        rintro rfl
        exact word.elim real other
      simp [Act.exec, other, free]
  | @dealloc q =>
      by_cases eq : a = q.addr
      · simp [Act.exec, eq]
      · simp [Act.exec, eq, free]
  | _ => exact free

/-- A destructor runs for every object without a count. -/
theorem ProtoStep.dying (step : ProtoStep sh r old act new)
    (bound : ∀ c, sh.status c ≠ .gone → c < sh.nCells)
    (ledger : LedgerInv sh old) (a : Nat)
    : tally (Token.dyings a) new
      = if ((act.exec sh).heap a).map Obj.strong = some 0 then 1 else 0 := by
  have base := ledger.dying a
  have object {p} (kept : Kept p old) (real : p.addr ≠ 0)
      : ∃ o, sh.heap p.addr = some o ∧ 1 ≤ o.strong := by
    have counted := (ledger.kept bound kept).2 real
    obtain ⟨o, there, same⟩ := Shared.of_strong counted
    exact ⟨o, there, same ▸ counted⟩
  have frame {tok} (inside : tok ∈ r) : tok ∈ old := step.frame inside
  cases step with
  | quiet quiet => cases act <;> first | exact base | cases quiet
  | @inc p kept =>
      unfold incAct
      split
      · simpa [Token.dyings, Act.exec] using base
      · obtain ⟨o, there, counted⟩ := object (kept.mono frame) ‹_›
        by_cases eq : a = p.addr
        · subst eq
          have some : o.strong ≠ 0 := by omega
          simpa [Token.dyings, Act.exec, Shared.count, there, some] using base
        · simpa [Token.dyings, Act.exec, Shared.count, eq] using base
  | @alloc b ty free =>
      by_cases eq : a = b
      · subst eq
        simpa [Token.dyings, Act.exec, free] using base
      · simpa [Token.dyings, Act.exec, eq] using base
  | @decLast p here one =>
      by_cases eq : a = p.addr
      · subst eq
        obtain ⟨o, there, strong⟩ := Option.map_eq_some_iff.mp one
        simp [Token.dyings, there, strong] at base
        simp [Token.dyings, Act.exec, Shared.count, there, strong, base]
      · simpa [Token.dyings, Act.exec, Shared.count, eq, Ne.symm eq] using base
  | @decMore p here other =>
      obtain ⟨o, there, counted⟩ := object (.inl (Multiset.mem_cons_self _ _)) here
      by_cases eq : a = p.addr
      · subst eq
        simp only [there, Option.map_some, ne_eq, Option.some.injEq] at other
        have some : o.strong ≠ 0 := by omega
        have more : o.strong - 1 ≠ 0 := by omega
        simpa [Token.dyings, Act.exec, Shared.count, there, some, more] using base
      · simpa [Token.dyings, Act.exec, Shared.count, eq] using base
  | @dealloc p =>
      by_cases eq : a = p.addr
      · subst eq
        simpa [Act.exec] using ledger.dead.2
      · simpa [Token.dyings, Act.exec, eq, Ne.symm eq] using base
  | _ => simpa [Token.dyings, Act.exec] using base

/-- The pointer of a protection that has been paid belongs to the object at its address. -/
theorem LedgerInv.rebound {M : Tokens} {p : Ptr} {n i} (inv : LedgerInv sh M)
    (held : .pending p n i ∈ M) (other : sh.slot n i ≠ p.addr)
    : (sh.rebind p).Valid sh := by
  refine ⟨inv.fine _ held, ?_, ?_⟩
  · intro null
    have null : p.addr = 0 := null
    simp [Shared.rebind, null, inv.null]
  · intro real
    obtain ⟨o, there, _⟩ := Shared.of_strong (inv.unpaid held other real)
    exact ⟨o, there, by simp [Shared.rebind, there]⟩

theorem Ptr.Valid.of_alike {p q : Ptr} (valid : p.Valid sh) (alike : p.Alike q) : q.Valid sh := by
  refine ⟨alike.addr ▸ valid.word, ?_, ?_⟩
  · rw [← alike.addr, ← alike.prov]
    exact valid.null
  · rw [← alike.addr, ← alike.prov]
    exact valid.object

/-- A candidate that is confirmed is a pointer to an existing object. -/
theorem LedgerInv.confirmed {M : Tokens} {n c p} (inv : LedgerInv sh M) (tx : TxInv sh M)
    (filled : .session n (.filled c (sh.control n) p) ∈ M)
    : p.Valid sh := by
  have ok : InTx sh n c (sh.control n) := (tx.sessions.ok n _ (mem_sessions.mpr filled)).1
  rcases inv.cover.backed n _ c _ p filled rfl rfl with alike | ⟨q, since, pos, walk, alike, _⟩
  · exact (inv.cells c ok.live).of_alike alike
  · have valid : q.Valid sh := inv.fine _ walk
    exact valid.of_alike alike

/-- A walk that is over has its count. -/
theorem LedgerInv.told {M : Tokens} {c p since} (inv : LedgerInv sh M)
    (told : .finished c p since ∈ M) (real : p.addr ≠ 0)
    : 1 ≤ sh.strong p.addr :=
  inv.owned told (by simp [Token.claims]) (by simp [Token.debtor]) real (inv.fine _ told).word

/-- What is not involved in a step stays valid. -/
theorem ProtoStep.fineFrame (step : ProtoStep sh r old act new) (inv : TxInv sh old)
    (ledger : LedgerInv sh old) {tok} (inside : tok ∈ r)
    : tok.Fine (act.exec sh) := by
  have there := step.frame inside
  have fine := ledger.fine tok there
  have kept {p} (kept : Kept p old) : p.Valid (act.exec sh) := by
    obtain ⟨valid, counted⟩ := ledger.kept inv.cells.bound kept
    exact step.valid ledger valid counted
  cases tok with
  | own p => exact kept (.inl there)
  | debt p n i => exact kept (.inr (.inl ⟨n, i, there⟩))
  | walk c p since pos => exact kept (.inr (.inr ⟨c, since, pos, there⟩))
  | finished c p since => exact step.valid ledger fine (ledger.told there)
  | session n ses => cases ses <;> exact fine
  | _ => exact fine

/-- The tokens of a step are valid after it. -/
theorem ProtoStep.fine (step : ProtoStep sh r old act new) (inv : TxInv sh old)
    (env : EnvInv sh old) (ledger : LedgerInv sh old)
    : ∀ tok ∈ new, tok.Fine (act.exec sh) := by
  have frame : ∀ tok ∈ r, tok.Fine (act.exec sh) := fun tok => step.fineFrame inv ledger
  have fine := ledger.fine
  have sess := inv.sessions
  have nodes := env.nodes
  have word {c} (live : sh.status c = .live) := (ledger.cells c live).word
  have stay {p : Ptr} (valid : p.Valid sh) (counted : p.addr ≠ 0 → 1 ≤ sh.strong p.addr)
      : p.Valid (act.exec sh) :=
    step.valid ledger valid counted
  have kept {p} (kept : Kept p old) : p.Valid (act.exec sh) := by
    obtain ⟨valid, counted⟩ := ledger.kept inv.cells.bound kept
    exact stay valid counted
  have cell {c} (live : sh.status c = .live) : (sh.ptr c).Valid (act.exec sh) := by
    have valid := ledger.cells c live
    refine stay valid fun real => ?_
    have placed := ledger.placed real valid.word
    have stored := Shared.cellsAt_pos inv.cells.bound ⟨c, live, rfl⟩
    omega
  have mono {tok} (inside : tok ∈ r) : tok ∈ old := step.frame inside
  cases step with
  | alloc free real other =>
      simp only [Multiset.forall_mem_cons]
      exact ⟨⟨other, fun null => absurd null real,
        fun _ => ⟨_, by simp [Act.exec]; rfl, rfl⟩⟩, frame⟩
  | null =>
      simp only [Multiset.forall_mem_cons]
      exact ⟨⟨by simp [NONE], fun _ => rfl, fun real => absurd rfl real⟩, frame⟩
  | inc there =>
      simp only [Multiset.forall_mem_cons]
      exact ⟨kept (there.mono mono), frame⟩
  | decLast | announce =>
      simp only [Multiset.forall_mem_cons]
      exact ⟨trivial, frame⟩
  | closeCell live =>
      simp only [Multiset.forall_mem_cons]
      exact ⟨cell live, trivial, frame⟩
  | write live same taken =>
      simp only [Multiset.forall_mem_cons]
      refine ⟨?_, frame⟩
      rcases taken with rfl | there
      · exact cell live
      · exact kept (there.mono mono)
  | finish =>
      simp only [Multiset.forall_mem_cons] at fine ⊢
      exact ⟨fine.1, frame⟩
  | told =>
      simp only [Multiset.forall_mem_cons] at fine ⊢
      exact ⟨fine.1, frame⟩
  | toldClosing =>
      simp only [Multiset.forall_mem_cons] at fine ⊢
      exact ⟨trivial, fine.1, frame⟩
  | first live =>
      simp only [Multiset.forall_mem_cons]
      exact ⟨word live, frame⟩
  | scan | publish | restore | fillSpace =>
      simp only [Multiset.forall_mem_cons] at fine ⊢
      exact ⟨fine.1, frame⟩
  | register | fill =>
      simp only [Multiset.forall_mem_cons] at fine ⊢
      exact ⟨trivial, fine.1, frame⟩
  | confirmFast live =>
      simp only [Multiset.forall_mem_cons]
      exact ⟨cell live, frame⟩
  | @adopt n i p other | @unusedWasPaid n p other =>
      simp only [Multiset.forall_mem_cons]
      exact ⟨ledger.rebound (by simp) other, frame⟩
  | candidate =>
      simp only [sessions_session] at sess
      simp only [Multiset.forall_mem_cons]
      exact ⟨word sess.head.1.live, frame⟩
  | unhelped same =>
      subst same
      simp only [Multiset.forall_mem_cons]
      refine ⟨trivial, ?_, frame⟩
      have valid := ledger.confirmed inv (Multiset.mem_cons_self _ _)
      exact ⟨valid.word, valid.null, valid.object⟩
  | helped other envelope gift =>
      simp only [sessions_session] at sess
      obtain ⟨given, eq⟩ := sess.head.1.given other
      simp only [Multiset.forall_mem_cons]
      refine ⟨trivial, ?_, frame⟩
      have valid := ledger.gifts _ given eq
      rw [gift, eq]
      exact ⟨valid.word, valid.null, valid.object⟩
  | readEnvelope same prov =>
      simp only [sessions_session, sessions_own] at nodes
      obtain ⟨_, addr, prov'⟩ := nodes.head
      have valid := kept (.inl (Multiset.mem_cons_of_mem (Multiset.mem_cons_self _ _)))
      simp only [Multiset.forall_mem_cons]
      exact ⟨trivial,
        valid.of_alike ⟨(same.trans addr).symm, (prov.trans prov').symm⟩, frame⟩
  | ownWasPaid =>
      simp only [Multiset.forall_mem_cons]
      exact ⟨kept (.inr (.inl ⟨_, _, Multiset.mem_cons_of_mem (Multiset.mem_cons_self _ _)⟩)),
        frame⟩
  | wasPaid =>
      simp only [Multiset.forall_mem_cons]
      exact ⟨kept (.inr (.inl ⟨_, _, Multiset.mem_cons_self _ _⟩)), frame⟩
  | head | settle | skip | leave | help | agrees | differs | unchanged | again | theirSpace | lose
  | retry | exchange =>
      simp only [Multiset.forall_mem_cons]
      exact ⟨kept (.inr (.inr ⟨_, _, _, Multiset.mem_cons_self _ _⟩)), frame⟩
  | mySpace | handOver =>
      simp only [Multiset.forall_mem_cons]
      exact ⟨kept (.inr (.inr ⟨_, _, _, Multiset.mem_cons_self _ _⟩)), trivial, frame⟩
  | _ => exact frame

/-- Storages in use hold pointers to existing objects. -/
theorem ProtoStep.cellsValid (step : ProtoStep sh r old act new) (inv : TxInv sh old)
    (ledger : LedgerInv sh old) {c} (live : (act.exec sh).status c = .live)
    : ((act.exec sh).ptr c).Valid (act.exec sh) := by
  have kept {p} (kept : Kept p old) : p.Valid (act.exec sh) := by
    obtain ⟨valid, counted⟩ := ledger.kept inv.cells.bound kept
    exact step.valid ledger valid counted
  have stays (before : sh.status c = .live) (same : (act.exec sh).ptr c = sh.ptr c)
      : ((act.exec sh).ptr c).Valid (act.exec sh) := by
    have valid := ledger.cells c before
    rw [same]
    refine step.valid ledger valid fun real => ?_
    have placed := ledger.placed real valid.word
    have stored := Shared.cellsAt_pos inv.cells.bound ⟨c, before, rfl⟩
    omega
  cases step with
  | quiet quiet => cases act <;> first | exact stays live rfl | cases quiet
  | inc =>
      revert live stays
      clear kept
      unfold incAct
      split <;> exact fun live stays => stays live rfl
  | newCell =>
      by_cases eq : c = sh.nCells
      · subst eq
        have valid := kept (.inl (Multiset.mem_cons_self _ _))
        simpa [Act.exec] using valid
      · simp only [Act.exec, ne_eq, eq, not_false_eq_true, Function.update_of_ne] at live
        exact stays live (by simp [Act.exec, eq])
  | @closeCell d =>
      by_cases eq : c = d
      · simp [Act.exec, eq] at live
      · simp only [Act.exec, ne_eq, eq, not_false_eq_true, Function.update_of_ne] at live
        exact stays live rfl
  | @freeCell d =>
      by_cases eq : c = d
      · simp [Act.exec, eq] at live
      · simp only [Act.exec, ne_eq, eq, not_false_eq_true, Function.update_of_ne] at live
        exact stays live rfl
  | @write d op q p =>
      by_cases eq : c = d
      · subst eq
        have valid := kept (.inl (Multiset.mem_cons_self _ _))
        simpa [Act.exec] using valid
      · exact stays live (by simp [Act.exec, eq])
  | _ => exact stays live rfl

/-- Only nodes of the list get replacements. -/
theorem TxInv.giftNode {M : Tokens} (inv : TxInv sh M) (list : sh.ListOk) {n g}
    (given : sh.gift n = some g)
    : n < sh.nNodes := by
  by_cases busy : n ∈ (ArcSwap.sessions M).map Prod.fst
  · obtain ⟨⟨n, ses⟩, inside, rfl⟩ := Multiset.mem_map.mp busy
    exact list.bound (inv.walks.linked n ses (mem_sessions.mp inside))
  · rw [(inv.sessions.quiet n busy).gift] at given
    cases given

/-- Replacements are pointers to existing objects. -/
theorem ProtoStep.giftsValid (step : ProtoStep sh r old act new) (list : sh.ListOk)
    (inv : TxInv sh old) (ledger : LedgerInv sh old) {n g} (given : (act.exec sh).gift n = some g)
    : g.Valid (act.exec sh) := by
  have stays (before : sh.gift n = some g) : g.Valid (act.exec sh) := by
    have valid := ledger.gifts n g before
    refine step.valid ledger valid fun real => ?_
    have placed := ledger.placed real valid.word
    have stored := Shared.giftsAt_pos (inv.giftNode list before) before
    omega
  have own {p : Ptr} (own : .own p ∈ old) : p.Valid (act.exec sh) := by
    obtain ⟨valid, counted⟩ := ledger.kept inv.cells.bound (.inl own)
    exact step.valid ledger valid counted
  cases step with
  | quiet quiet => cases act <;> first | exact stays given | cases quiet
  | inc =>
      revert given stays
      clear own
      unfold incAct
      split <;> exact fun given stays => stays given
  | newNode =>
      by_cases eq : n = sh.nNodes
      · simp [Act.exec, eq] at given
      · exact stays (by simpa [Act.exec, eq] using given)
  | @unhelped m | @helped m =>
      by_cases eq : n = m
      · simp [Act.exec, eq] at given
      · exact stays (by simpa [Act.exec, eq] using given)
  | @handOver c p since h their mine g' =>
      by_cases eq : n = h.who
      · simp only [Act.exec, eq, Function.update_self, Option.some.injEq] at given
        subst given
        exact own (by simp)
      · exact stays (by simpa [Act.exec, eq] using given)
  | _ => exact stays given

/-- A step of the debt protocol keeps the ledger. -/
theorem ProtoStep.ledger (step : ProtoStep sh r old act new) (list : sh.ListOk)
    (inv : TxInv sh old) (env : EnvInv sh old) (ledger : LedgerInv sh old)
    : LedgerInv (act.exec sh) new where
  cover := by
    refine step.coverInv list inv ledger.cover fun c p live kept same => ?_
    exact (ledger.kept inv.cells.bound kept).1.alike (ledger.cells c live) same
  fine := step.fine inv env ledger
  cells _ := step.cellsValid inv ledger
  gifts _ _ := step.giftsValid list inv ledger
  null := step.vacant ledger.null (.inl rfl)
  word := step.vacant ledger.word (.inr rfl)
  dying := step.dying inv.cells.bound ledger
  balanced _ := step.balanced list inv env ledger

/-- Time passes. -/
theorem LedgerInv.tick {M : Tokens} (ledger : LedgerInv sh M) (time : Nat)
    : LedgerInv { sh with time } M where
  cover := ⟨ledger.cover.owed, ledger.cover.covered, ledger.cover.backed⟩
  fine tok inside := by
    have fine := ledger.fine tok inside
    cases tok with
    | own | debt | walk | finished => exact ⟨fine.word, fine.null, fine.object⟩
    | session n ses => cases ses <;> exact fine
    | _ => exact fine
  cells c live :=
    have valid := ledger.cells c live
    ⟨valid.word, valid.null, valid.object⟩
  gifts n g given :=
    have valid := ledger.gifts n g given
    ⟨valid.word, valid.null, valid.object⟩
  null := ledger.null
  word := ledger.word
  dying := ledger.dying
  balanced := ledger.balanced

end step

theorem LedgerInv.init : LedgerInv .init 0 where
  cover := by
    refine ⟨?_, ?_, ?_⟩
    · exact fun n i occupied => absurd rfl occupied
    · exact fun n i occupied => absurd rfl occupied
    · exact fun n ses c gen p inside => absurd inside (Multiset.notMem_zero _)
  fine tok inside := absurd inside (Multiset.notMem_zero _)
  cells c live := by cases live
  gifts n g given := by cases given
  null := rfl
  word := rfl
  dying a := rfl
  balanced a real word := by
    simp [Balanced, Shared.strong, Shared.slotsAt, Shared.cellsAt, Shared.giftsAt, Shared.init]

end ArcSwap
