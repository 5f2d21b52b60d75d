import ArcSwap.Proofs.Handovers

/-! What a debt rests on. A slot that holds an address belongs to a protection of that
pointer, and until the protection is confirmed or paid the object is kept by a storage, or
by a writer that has taken it out of one and has not come to the slot yet.
-/

namespace ArcSwap

open Assignments

-----------------------------------------------------------------------------------------
-- The part of the list that a walk has before it
-----------------------------------------------------------------------------------------

/-- The walk has not visited the slot yet. -/
def Pos.ahead (rank : NodeId → Nat) (n : NodeId) (i : Nat) : Pos → Prop
  | .start => True
  | .node m => rank n ≤ rank m
  | .active h | .differs h | .agrees h | .space h _ | .handed h _ | .lost h =>
      rank n ≤ rank h.who
  | .slots m j => rank n < rank m ∨ n = m ∧ j ≤ i
  | .done => False

/-- The walk will help the transaction `gen` on the node, if that is still running then. -/
def Pos.before (rank : NodeId → Nat) (n : NodeId) (gen : Nat) : Pos → Prop
  | .start => True
  | .node m => rank n ≤ rank m
  | .active h | .agrees h | .space h _ | .lost h =>
      rank n < rank h.who ∨ n = h.who ∧ h.control = gen
  | .differs h | .handed h _ => rank n < rank h.who
  | .slots m _ => rank n < rank m
  | .done => False

/-- The node that a walk is at. -/
def Pos.ranked : Pos → Option NodeId
  | .node m | .slots m _ => some m
  | .active h | .differs h | .agrees h | .space h _ | .handed h _ | .lost h => some h.who
  | .start | .done => none

/-- A walk that will help on a node has its slots before it. -/
theorem Pos.before.ahead {rank n gen} {pos : Pos} (before : pos.before rank n gen) (i : Nat)
    : pos.ahead rank n i := by
  have at_ {m} (before : rank n < rank m ∨ n = m ∧ True) : rank n ≤ rank m := by
    rcases before with less | ⟨rfl, _⟩
    · exact Nat.le_of_lt less
    · exact Nat.le_refl _
  cases pos with
  | start => trivial
  | node m => exact before
  | active | agrees | space | lost =>
      exact at_ (before.imp_right fun ⟨eq, _⟩ => ⟨eq, trivial⟩)
  | differs | handed => exact Nat.le_of_lt before
  | slots => exact .inl before
  | done => exact before

section step

variable {sh : Shared} {r old new : Tokens} {act : Act}

/-- The node that the walk reaches next, in a list of ranked nodes. -/
theorem ListOk.ahead_head (list : sh.ListOk) {n} (linked : sh.linked n = true) {P : Pos → Prop}
    (node : ∀ m, sh.rank n ≤ sh.rank m → P (.node m))
    : P (.at sh.head) := by
  have rank := list.rankLt linked
  cases eq : sh.head with
  | none =>
      have empty := list.headNone eq
      omega
  | some m =>
      have top := (list.headSome eq).2
      exact node m (by omega)

theorem ListOk.ahead_next (list : sh.ListOk) {n m} (linked : sh.linked m = true)
    (below : sh.rank n < sh.rank m) {P : Pos → Prop}
    (node : ∀ k, sh.rank n ≤ sh.rank k → P (.node k))
    : P (.at (sh.next m)) := by
  cases eq : sh.next m with
  | none =>
      have last := list.nextNone linked eq
      omega
  | some k =>
      have next := (list.nextSome linked eq).2
      exact node k (by omega)

theorem Dispatched.ahead {h : Helping} {pos n i} (dispatch : Dispatched h pos)
    (list : sh.ListOk) (linked : sh.linked n = true) (who : sh.linked h.who = true)
    (before : sh.rank n ≤ sh.rank h.who)
    : pos.ahead sh.rank n i := by
  cases dispatch with
  | active => exact before
  | slots =>
      rcases Nat.lt_or_eq_of_le before with less | same
      · exact .inl less
      · exact .inr ⟨list.rankInj linked who same, Nat.zero_le i⟩

/-- A walk passes a slot only when its pointer is not there any more. -/
theorem PosStep.ahead {c p pos pos' n i} (move : PosStep sh c p pos act pos') (list : sh.ListOk)
    (ok : pos.Ok sh c) (linked : sh.linked n = true) (bound : i ≤ HELPING)
    (there : (act.exec sh).slot n i = p.addr) (word : p.addr ≠ NONE)
    (before : pos.ahead sh.rank n i)
    : pos'.ahead sh.rank n i := by
  have begin {m} (who : sh.linked m = true) (before : sh.rank n ≤ sh.rank m)
      : (Pos.slots m 0).ahead sh.rank n i :=
    Dispatched.ahead (.slots (h := ⟨m, 0, 0, 0, 0, 0, 0⟩) (.inr rfl)) list linked who before
  cases move with
  | head => exact list.ahead_head linked fun m before => before
  | @settle m j =>
      refine before.imp_right ?_
      rintro ⟨rfl, le⟩
      refine ⟨rfl, Nat.lt_of_le_of_ne le ?_⟩
      rintro rfl
      exact word (by simpa [Act.exec, set₂] using there.symm)
  | @skip m j other =>
      refine before.imp_right ?_
      rintro ⟨rfl, le⟩
      refine ⟨rfl, Nat.lt_of_le_of_ne le ?_⟩
      rintro rfl
      exact other there
  | @leave m j all =>
      refine list.ahead_next ok (before.resolve_right ?_) fun k before => before
      rintro ⟨_, le⟩
      omega
  | help who _ _ _ dispatch =>
      subst who
      exact dispatch.ahead list linked ok before
  | agrees | differs | theirSpace | mySpace | handOver | lose => exact before
  | unchanged => exact begin (Helping.Ok.who ok) before
  | @again h pos' _ dispatch =>
      have ok : h.Ok sh := ok
      exact dispatch.ahead list linked ok.who before
  | retry dispatch => exact dispatch.ahead list linked ok.1 before
  | exchange => exact begin ok.1.who before

theorem PosStep.rank {c p pos pos'} (move : PosStep sh c p pos act pos')
    : (act.exec sh).rank = sh.rank := by
  cases move <;> rfl

theorem Dispatched.before {h : Helping} {pos n gen} (dispatch : Dispatched h pos)
    (tag : tagOf gen = GEN_TAG)
    (before : sh.rank n < sh.rank h.who ∨ n = h.who ∧ h.control = gen)
    : pos.before sh.rank n gen := by
  cases dispatch with
  | active => exact before
  | slots other =>
      refine before.resolve_right ?_
      rintro ⟨_, rfl⟩
      rcases other with replaced | idle
      · rw [tag] at replaced
        cases replaced
      · rw [idle] at tag
        cases tag

/-- A walk that passes a node without helping its transaction has found it ended. -/
theorem PosStep.before {c p pos pos' n gen} (move : PosStep sh c p pos act pos')
    (step : ProtoStep sh r old act new) (list : sh.ListOk) (inv : TxInv sh old)
    (ok : pos.Ok sh c) (tx : InTx sh n c gen) (linked : sh.linked n = true)
    (runs : (act.exec sh).control n = gen) (control : sh.control n = gen)
    (before : pos.before sh.rank n gen)
    : pos'.before sh.rank n gen := by
  cases move with
  | head => exact list.ahead_head linked fun m before => before
  | settle | skip | agrees | theirSpace | mySpace | exchange | unchanged => exact before
  | leave => exact list.ahead_next ok before fun k before => before
  | help who read _ _ dispatch =>
      subst who
      refine dispatch.before tx.tag ?_
      rcases Nat.lt_or_eq_of_le before with less | same
      · exact .inl less
      · have eq := list.rankInj linked ok same
        subst eq
        exact .inr ⟨rfl, read.trans control⟩
  | @differs h other =>
      refine before.resolve_right ?_
      rintro ⟨rfl, _⟩
      exact other tx.addr
  | again _ dispatch => exact dispatch.before tx.tag (.inl before)
  | @handOver h their mine given same =>
      refine before.resolve_right ?_
      rintro ⟨rfl, _⟩
      have tag := tx.tag
      have aligned := step.envelopeAligned inv
      simp only [Act.exec, Function.update_self] at runs
      subst runs
      simp only [tagOf, GEN_TAG, REPLACEMENT_TAG] at tag aligned
      omega
  | @lose h their other =>
      refine .inl (before.resolve_right ?_)
      rintro ⟨rfl, read⟩
      exact other (control.trans read.symm)
  | retry dispatch => exact dispatch.before tx.tag before

/-- What becomes of a walk. -/
theorem ProtoStep.walkTo (step : ProtoStep sh r old act new) {c p since pos}
    (walk : .walk c p since pos ∈ old)
    : .walk c p since pos ∈ r
      ∨ (∃ pos', PosStep sh c p pos act pos' ∧ .walk c p since pos' ∈ new)
      ∨ pos = .done := by
  have moved {d q from' pos₀ pos₁} {rest rest' : Tokens}
      (walk : .walk c p since pos ∈ .walk d q from' pos₀ ::ₘ rest)
      (others : ∀ d q s pos, .walk d q s pos ∈ rest → .walk d q s pos ∈ r)
      (step : PosStep sh d q pos₀ act pos₁)
      : .walk c p since pos ∈ r
        ∨ (∃ pos', PosStep sh c p pos act pos'
          ∧ .walk c p since pos' ∈ .walk d q from' pos₁ ::ₘ rest')
        ∨ pos = .done := by
    rcases Multiset.mem_cons.mp walk with eq | there
    · cases eq
      exact .inr (.inl ⟨pos₁, step, Multiset.mem_cons_self _ _⟩)
    · exact .inl (others _ _ _ _ there)
  cases step with
  | finish =>
      rcases Multiset.mem_cons.mp walk with eq | there
      · cases eq
        exact .inr (.inr rfl)
      · exact .inl there
  | head => exact moved walk (by simp) .head
  | settle there => exact moved walk (by simp) (.settle there)
  | skip other => exact moved walk (by simp) (.skip other)
  | leave all => exact moved walk (by simp) (.leave all)
  | help who control seen entered self idle dispatch =>
      exact moved walk (by simp) (.help who control seen entered dispatch)
  | agrees same => exact moved walk (by simp) (.agrees same)
  | differs other => exact moved walk (by simp) (.differs other)
  | unchanged same => exact moved walk (by simp) (.unchanged same)
  | again other dispatch => exact moved walk (by simp) (.again other dispatch)
  | theirSpace => exact moved walk (by simp) .theirSpace
  | mySpace => exact moved walk (by simp) .mySpace
  | handOver same => exact moved walk (by simp) (.handOver same)
  | lose other => exact moved walk (by simp) (.lose other)
  | retry dispatch => exact moved walk (by simp) (.retry dispatch)
  | exchange => exact moved walk (by simp) .exchange
  | _ => exact .inl (by simpa using walk)

-----------------------------------------------------------------------------------------
-- Slots and their protections
-----------------------------------------------------------------------------------------

/-- A protection of the address is registered in the slot. -/
def Owed (M : Tokens) (n : NodeId) (i a : Nat) : Prop :=
  ∃ p : Ptr, p.addr = a ∧ (.debt p n i ∈ M ∨ .pending p n i ∈ M)

/-- The address in an occupied slot was there before, or a load registers it now. -/
theorem ProtoStep.slotFrom (step : ProtoStep sh r old act new) {n i}
    (occupied : (act.exec sh).slot n i ≠ NONE)
    : (act.exec sh).slot n i = sh.slot n i
      ∨ ∃ p, .pending p n i ∈ new ∧ p.addr = (act.exec sh).slot n i := by
  cases step with
  | quiet quiet => cases act <;> first | exact .inl rfl | cases quiet
  | inc => unfold incAct; split <;> exact .inl rfl
  | newNode =>
      by_cases eq : n = sh.nNodes
      · simp [Act.exec, eq] at occupied
      · simp [Act.exec, eq]
  | @register m j p =>
      by_cases eq : n = m ∧ i = j
      · obtain ⟨rfl, rfl⟩ := eq
        exact .inr ⟨p, by simp, by simp [Act.exec, set₂]⟩
      · simp [Act.exec, set₂, eq]
  | @fill m c gen p =>
      by_cases eq : n = m ∧ i = HELPING
      · obtain ⟨rfl, rfl⟩ := eq
        exact .inr ⟨p, by simp, by simp [Act.exec, set₂]⟩
      · simp [Act.exec, set₂, eq]
  | payBack | ownPaid | unusedPaid | paid | settle =>
      left
      simp only [Act.exec, set₂] at occupied ⊢
      split at occupied
      · exact absurd rfl occupied
      · exact if_neg ‹_›
  | _ => exact .inl rfl

/-- The tokens that are not involved in a step are there after it. -/
theorem ProtoStep.frameTo {tok} (step : ProtoStep sh r old act new) (inside : tok ∈ r)
    : tok ∈ new := by
  cases step <;> simp only [Multiset.mem_cons, inside, or_true]

/-- A slot that keeps an address keeps a protection. -/
theorem ProtoStep.owed (step : ProtoStep sh r old act new) {n i}
    (occupied : (act.exec sh).slot n i ≠ NONE) (owed : Owed old n i ((act.exec sh).slot n i))
    : Owed new n i ((act.exec sh).slot n i) := by
  obtain ⟨p, addr, held⟩ := owed
  have kept (held : .debt p n i ∈ r ∨ .pending p n i ∈ r)
      : Owed new n i ((act.exec sh).slot n i) :=
    ⟨p, addr, held.imp step.frameTo step.frameTo⟩
  cases step with
  | confirmFast live same =>
      simp only [Multiset.mem_cons, reduceCtorEq, false_or, Token.pending.injEq] at held
      rcases held with held | ⟨rfl, rfl, rfl⟩ | held
      · exact kept (.inl held)
      · exact ⟨_, same ▸ addr, .inl (Multiset.mem_cons_self _ _)⟩
      · exact kept (.inr held)
  | unhelped =>
      simp only [Multiset.mem_cons, reduceCtorEq, false_or, Token.pending.injEq] at held
      rcases held with held | ⟨rfl, rfl, rfl⟩ | held
      · exact kept (.inl held)
      · exact ⟨p, addr, .inl (by simp)⟩
      · exact kept (.inr held)
  | payBack | unusedPaid =>
      simp only [Multiset.mem_cons, reduceCtorEq, false_or, Token.pending.injEq] at held
      rcases held with held | ⟨rfl, rfl, rfl⟩ | held
      · exact kept (.inl held)
      · exact absurd (by simp [Act.exec, set₂]) occupied
      · exact kept (.inr held)
  | adopt other | unusedWasPaid other =>
      simp only [Multiset.mem_cons, reduceCtorEq, false_or, Token.pending.injEq] at held
      rcases held with held | ⟨rfl, rfl, rfl⟩ | held
      · exact kept (.inl held)
      · exact absurd addr.symm other
      · exact kept (.inr held)
  | ownPaid | paid =>
      simp only [Multiset.mem_cons, reduceCtorEq, false_or, Token.debt.injEq] at held
      rcases held with (⟨rfl, rfl, rfl⟩ | held) | held
      · exact absurd (by simp [Act.exec, set₂]) occupied
      · exact kept (.inl held)
      · exact kept (.inr held)
  | ownWasPaid other | wasPaid other =>
      simp only [Multiset.mem_cons, reduceCtorEq, false_or, Token.debt.injEq] at held
      rcases held with (⟨rfl, rfl, rfl⟩ | held) | held
      · exact absurd addr.symm other
      · exact kept (.inl held)
      · exact kept (.inr held)
  | register | fill => exact ⟨p, addr, .imp (by simp) (by simp_all) held⟩
  | _ => exact kept (by simpa using held)

-----------------------------------------------------------------------------------------
-- What the object of an address in a slot is kept by
-----------------------------------------------------------------------------------------

/-- A storage in use holds the address. -/
def Shared.Stored (sh : Shared) (a : Nat) : Prop :=
  ∃ c, sh.status c = .live ∧ (sh.ptr c).addr = a

/-- The protection in the slot is not confirmed, a storage in use holds the address, or a
writer that has taken it out of one has the slot before it.
-/
def Covered (sh : Shared) (M : Tokens) (n : NodeId) (i a : Nat) : Prop :=
  (∃ p : Ptr, p.addr = a ∧ .pending p n i ∈ M)
  ∨ sh.Stored a
  ∨ ∃ c p since pos, .walk c p since pos ∈ M ∧ p.addr = a ∧ pos.ahead sh.rank n i

/-- The same address, and the same object. -/
structure Ptr.Alike (p q : Ptr) : Prop where
  addr : p.addr = q.addr
  prov : p.prov = q.prov

/-- The storage still holds the candidate that a transaction has read from it, or a writer
that has taken it out will help the transaction.
-/
def Backed (sh : Shared) (M : Tokens) (c : CellId) (n : NodeId) (gen : Nat) (p : Ptr) : Prop :=
  (sh.ptr c).Alike p
  ∨ ∃ q since pos, .walk c q since pos ∈ M ∧ q.Alike p ∧ pos.before sh.rank n gen

/-- The storage, the generation and the candidate of a transaction that is not over. -/
def Session.reading : Session → Option (CellId × Nat × Ptr)
  | .candidate c gen p | .filled c gen p => some (c, gen, p)
  | _ => none

/-- What debts and transactions rest on. -/
structure CoverInv (sh : Shared) (M : Tokens) : Prop where
  owed : ∀ n i, sh.slot n i ≠ NONE → Owed M n i (sh.slot n i)
  covered : ∀ n i, sh.slot n i ≠ NONE → Covered sh M n i (sh.slot n i)
  backed
    : ∀ n ses c gen p, .session n ses ∈ M → ses.reading = some (c, gen, p)
        → sh.control n = gen → Backed sh M c n gen p

/-- Nodes of the list keep their ranks. -/
theorem ProtoStep.rank (step : ProtoStep sh r old act new) {n} (linked : sh.linked n = true)
    : (act.exec sh).rank n = sh.rank n := by
  cases step with
  | quiet quiet => cases act <;> first | rfl | cases quiet
  | inc => unfold incAct; split <;> rfl
  | @link m head unlinked =>
      have other : n ≠ m := by
        rintro rfl
        rw [linked] at unlinked
        cases unlinked
      simp [Act.exec, other]
  | _ => rfl

theorem Kept.mono {p : Ptr} {M M' : Tokens} (kept : Kept p M)
    (mono : ∀ {tok}, tok ∈ M → tok ∈ M')
    : Kept p M' := by
  rcases kept with own | ⟨n, i, debt⟩ | ⟨c, since, pos, walk⟩
  · exact .inl (mono own)
  · exact .inr (.inl ⟨n, i, mono debt⟩)
  · exact .inr (.inr ⟨c, since, pos, mono walk⟩)

/-- A storage in use that is written or closed down leaves its pointer to a walk. -/
theorem ProtoStep.stored (step : ProtoStep sh r old act new) (cells : CellInv sh old) {c}
    (live : sh.status c = .live)
    : ((act.exec sh).status c = .live ∧ (act.exec sh).ptr c = sh.ptr c)
      ∨ ∃ p, .walk c p (sh.time + 1) .start ∈ new ∧ p.addr = (sh.ptr c).addr
          ∧ (p = sh.ptr c ∨ Kept p old) := by
  have frame {tok} (inside : tok ∈ r) : tok ∈ old := step.frame inside
  cases step with
  | quiet quiet => cases act <;> first | exact .inl ⟨live, rfl⟩ | cases quiet
  | inc => unfold incAct; split <;> exact .inl ⟨live, rfl⟩
  | newCell =>
      have bound := cells.bound c (by simp [live])
      simp [Act.exec, Nat.ne_of_lt bound, live]
  | @closeCell d =>
      by_cases eq : c = d
      · subst eq
        exact .inr ⟨sh.ptr c, by simp, rfl, .inl rfl⟩
      · exact .inl (by simp [Act.exec, eq, live])
  | @freeCell d =>
      have other : c ≠ d := by
        rintro rfl
        rw [cells.of_closed] at live
        cases live
      exact .inl (by simp [Act.exec, other, live])
  | @write d op q p _ same taken =>
      by_cases eq : c = d
      · subst eq
        exact .inr ⟨p, by simp, same, taken.imp_right fun kept => kept.mono frame⟩
      · exact .inl (by simp [Act.exec, eq, live])
  | _ => exact .inl ⟨live, rfl⟩

/-- The order of the list does not change for the place a walk is at. -/
theorem Pos.ranks {rank' : NodeId → Nat} {pos : Pos} {c n} (ok : pos.Ok sh c)
    (same : ∀ m, sh.linked m = true → rank' m = sh.rank m) (linked : sh.linked n = true)
    : (∀ i, pos.ahead rank' n i ↔ pos.ahead sh.rank n i)
      ∧ ∀ gen, pos.before rank' n gen ↔ pos.before sh.rank n gen := by
  have at_ {m} (there : sh.linked m = true)
      : (rank' n ≤ rank' m ↔ sh.rank n ≤ sh.rank m)
        ∧ (rank' n < rank' m ↔ sh.rank n < sh.rank m) := by
    rw [same n linked, same m there]
    exact ⟨.rfl, .rfl⟩
  have who : ∀ m, pos.ranked = some m → sh.linked m = true := by
    intro m at_
    cases pos <;> cases at_
    · exact ok
    · exact ok.1.who
    · exact Helping.Ok.who ok
    · exact ok.1.who
    · exact ok.1.who
    · exact ok.1.who
    · exact ok.1
    · exact ok
  cases pos with
  | start | done => exact ⟨fun _ => .rfl, fun _ => .rfl⟩
  | _ =>
      have there := at_ (who _ rfl)
      simp only [ahead, before, there.1, there.2, implies_true, and_self]

/-- A walk has a slot before it until it has visited it. -/
theorem ProtoStep.ahead (step : ProtoStep sh r old act new) (list : sh.ListOk)
    (inv : TxInv sh old) {c p since pos n i} (walk : .walk c p since pos ∈ old)
    (linked : sh.linked n = true) (bound : i ≤ HELPING)
    (there : (act.exec sh).slot n i = p.addr) (word : p.addr ≠ NONE)
    (before : pos.ahead sh.rank n i)
    : ∃ pos', .walk c p since pos' ∈ new ∧ pos'.ahead (act.exec sh).rank n i := by
  have ok : pos.Ok sh c := inv.walks.pos c p since pos walk
  rcases step.walkTo walk with kept | ⟨pos', move, moved⟩ | rfl
  · exact ⟨pos, step.frameTo kept, ((Pos.ranks ok (fun _ => step.rank) linked).1 i).mpr before⟩
  · refine ⟨pos', moved, ?_⟩
    rw [move.rank]
    exact move.ahead list ok linked bound there word before
  · exact before.elim

/-- A walk has a transaction before it until it has come to it. -/
theorem ProtoStep.before (step : ProtoStep sh r old act new) (list : sh.ListOk)
    (inv : TxInv sh old) {c p since pos n gen} (walk : .walk c p since pos ∈ old)
    (linked : sh.linked n = true) (tx : InTx sh n c gen) (runs : (act.exec sh).control n = gen)
    (control : sh.control n = gen) (before : pos.before sh.rank n gen)
    : ∃ pos', .walk c p since pos' ∈ new ∧ pos'.before (act.exec sh).rank n gen := by
  have ok : pos.Ok sh c := inv.walks.pos c p since pos walk
  rcases step.walkTo walk with kept | ⟨pos', move, moved⟩ | rfl
  · exact ⟨pos, step.frameTo kept,
      ((Pos.ranks ok (fun _ => step.rank) linked).2 gen).mpr before⟩
  · refine ⟨pos', moved, ?_⟩
    rw [move.rank]
    exact move.before step list inv ok tx linked runs control before
  · exact before.elim

/-- A protection that is not confirmed stays so, unless it loses its slot, the storage still
holds its pointer, or the transaction that it is for has not been helped.
-/
theorem ProtoStep.pendingTo (step : ProtoStep sh r old act new) {p : Ptr} {n i}
    (held : .pending p n i ∈ old) (there : (act.exec sh).slot n i = p.addr)
    (word : p.addr ≠ NONE)
    : .pending p n i ∈ new
      ∨ (act = .nop ∧ sh.Stored p.addr)
      ∨ ∃ c, act = .goIdle n ∧ .session n (.filled c (sh.control n) p) ∈ old := by
  have kept (held : .pending p n i ∈ r)
      : .pending p n i ∈ new
        ∨ (act = .nop ∧ sh.Stored p.addr)
        ∨ ∃ c, act = .goIdle n ∧ .session n (.filled c (sh.control n) p) ∈ old :=
    .inl (step.frameTo held)
  cases step with
  | @confirmFast m j q c live same =>
      simp only [Multiset.mem_cons, reduceCtorEq, false_or, Token.pending.injEq] at held
      rcases held with ⟨rfl, rfl, rfl⟩ | held
      · exact .inr (.inl ⟨rfl, c, live, same.symm⟩)
      · exact kept held
  | @unhelped m c gen q same =>
      simp only [Multiset.mem_cons, reduceCtorEq, false_or, Token.pending.injEq] at held
      rcases held with ⟨rfl, rfl, rfl⟩ | held
      · exact .inr (.inr ⟨c, rfl, same ▸ Multiset.mem_cons_self _ _⟩)
      · exact kept held
  | payBack | unusedPaid =>
      simp only [Multiset.mem_cons, reduceCtorEq, false_or, Token.pending.injEq] at held
      rcases held with ⟨rfl, rfl, rfl⟩ | held
      · exact absurd (by simp [← there, Act.exec, set₂]) word
      · exact kept held
  | adopt other | unusedWasPaid other =>
      simp only [Multiset.mem_cons, reduceCtorEq, false_or, Token.pending.injEq] at held
      rcases held with ⟨rfl, rfl, rfl⟩ | held
      · exact absurd there other
      · exact kept held
  | _ => exact .inl (by simp_all)

/-- A slot that keeps an address stays covered. -/
theorem ProtoStep.covered (step : ProtoStep sh r old act new) (list : sh.ListOk)
    (inv : TxInv sh old) (cover : CoverInv sh old) {n i}
    (occupied : (act.exec sh).slot n i ≠ NONE)
    : Covered (act.exec sh) new n i ((act.exec sh).slot n i) := by
  rcases step.slotFrom occupied with same | ⟨p, held, addr⟩
  · have before : sh.slot n i ≠ NONE := same ▸ occupied
    obtain ⟨linked, bound⟩ := inv.walks.slots n i before
    have walked {c p since pos} (walk : .walk c p since pos ∈ old) (addr : p.addr = sh.slot n i)
        (ahead : pos.ahead sh.rank n i)
        : Covered (act.exec sh) new n i ((act.exec sh).slot n i) := by
      have addr := addr.trans same.symm
      obtain ⟨pos', there, ahead⟩ :=
        step.ahead list inv walk linked bound addr.symm (addr ▸ occupied) ahead
      exact .inr (.inr ⟨c, p, since, pos', there, addr, ahead⟩)
    have stored {c} (live : sh.status c = .live) (addr : (sh.ptr c).addr = sh.slot n i)
        : Covered (act.exec sh) new n i ((act.exec sh).slot n i) := by
      rcases step.stored inv.cells live with ⟨live, ptr⟩ | ⟨p, walk, eq, _⟩
      · exact .inr (.inl ⟨c, live, by rw [ptr, addr, same]⟩)
      · exact .inr (.inr ⟨c, p, _, .start, walk, by rw [eq, addr, same], trivial⟩)
    rcases cover.covered n i before
      with ⟨p, addr, held⟩ | ⟨c, live, addr⟩ | ⟨c, p, since, pos, walk, addr, ahead⟩
    · have addr := addr.trans same.symm
      rcases step.pendingTo held addr.symm (addr ▸ occupied)
        with held | ⟨_, c, live, eq⟩ | ⟨c, idle, filled⟩
      · exact .inl ⟨p, addr, held⟩
      · exact stored live (by rw [eq, addr, same])
      · have tx : InTx sh n c (sh.control n) :=
          (inv.sessions.ok n _ (mem_sessions.mpr filled)).1
        rcases cover.backed n _ c _ p filled rfl rfl
          with alike | ⟨q, since, pos, walk, alike, before⟩
        · exact stored tx.live (by rw [alike.addr, addr, same])
        · exact walked walk (by rw [alike.addr, addr, same]) (before.ahead i)
    · exact stored live addr
    · exact walked walk addr ahead
  · exact .inl ⟨p, addr, held⟩

/-- A candidate after a step was read before, or it is read from the storage now. -/
theorem ProtoStep.readingFrom (step : ProtoStep sh r old act new) {n ses c gen p}
    (inside : .session n ses ∈ new) (reading : ses.reading = some (c, gen, p))
    : (∃ ses, .session n ses ∈ old ∧ ses.reading = some (c, gen, p))
      ∨ act = .nop ∧ p = sh.ptr c := by
  have kept (inside : .session n ses ∈ r)
      : (∃ ses, .session n ses ∈ old ∧ ses.reading = some (c, gen, p))
        ∨ act = .nop ∧ p = sh.ptr c :=
    .inl ⟨ses, step.frame inside, reading⟩
  cases step with
  | candidate =>
      rcases Multiset.mem_cons.mp inside with eq | inside
      · cases eq
        cases reading
        exact .inr ⟨rfl, rfl⟩
      · exact kept inside
  | fill =>
      simp only [Multiset.mem_cons, reduceCtorEq, false_or] at inside
      rcases inside with eq | inside
      · cases eq
        cases reading
        exact .inl ⟨_, Multiset.mem_cons_self _ _, rfl⟩
      · exact kept inside
  | scan | register | announce | publish | unhelped | helped | readEnvelope | restore | mySpace
  | fillSpace | handOver =>
      simp only [Multiset.mem_cons, reduceCtorEq, false_or] at inside
      rcases inside with eq | inside
      · cases eq
        cases reading
      · exact kept inside
  | _ => exact kept (by simpa using inside)

/-- A generation is published in a session that has announced its storage. -/
theorem ProtoStep.publisher {n gen} (step : ProtoStep sh r old act new)
    (eq : act = .publish n gen)
    : ∃ c counter, .session n (.announced c counter) ∈ old := by
  cases step with
  | quiet quiet =>
      subst eq
      cases quiet
  | inc =>
      unfold incAct at eq
      split at eq <;> cases eq
  | publish =>
      cases eq
      exact ⟨_, _, Multiset.mem_cons_self _ _⟩
  | _ => cases eq

/-- A candidate of a running transaction stays backed. -/
theorem ProtoStep.backed (step : ProtoStep sh r old act new) (list : sh.ListOk)
    (inv : TxInv sh old) (cover : CoverInv sh old)
    (alike
      : ∀ c p, sh.status c = .live → Kept p old → p.addr = (sh.ptr c).addr
        → p.Alike (sh.ptr c))
    {n ses c gen p} (inside : .session n ses ∈ new) (reading : ses.reading = some (c, gen, p))
    (runs : (act.exec sh).control n = gen)
    : Backed (act.exec sh) new c n gen p := by
  rcases step.readingFrom inside reading with ⟨ses, inside, reading⟩ | ⟨rfl, rfl⟩
  · have ok := inv.sessions.ok n ses (mem_sessions.mpr inside)
    have tx : InTx sh n c gen := by
      cases ses <;> cases reading <;> exact ok.1
    have linked := inv.walks.linked n ses inside
    have control : sh.control n = gen := by
      rcases step.generation inv (runs ▸ tx.tag) with ⟨same, _⟩ | ⟨published, _⟩
      · exact same.symm.trans runs
      · obtain ⟨d, counter, announced⟩ := step.publisher published
        have eq := inv.sessions.unique inside announced
        subst eq
        cases reading
    rcases cover.backed n ses c gen p inside reading control
      with same | ⟨q, since, pos, walk, same, before⟩
    · rcases step.stored inv.cells tx.live with ⟨_, ptr⟩ | ⟨q, walk, eq, from_⟩
      · exact .inl (ptr ▸ same)
      · refine .inr ⟨q, _, .start, walk, ?_, trivial⟩
        have like : q.Alike (sh.ptr c) := by
          rcases from_ with rfl | kept
          · exact ⟨rfl, rfl⟩
          · exact alike c q tx.live kept eq
        exact ⟨like.addr.trans same.addr, like.prov.trans same.prov⟩
    · obtain ⟨pos', there, before⟩ := step.before list inv walk linked tx runs control before
      exact .inr ⟨q, since, pos', there, same, before⟩
  · exact .inl ⟨rfl, rfl⟩

/-- A step keeps what debts and transactions rest on. -/
theorem ProtoStep.coverInv (step : ProtoStep sh r old act new) (list : sh.ListOk)
    (inv : TxInv sh old) (cover : CoverInv sh old)
    (alike
      : ∀ c p, sh.status c = .live → Kept p old → p.addr = (sh.ptr c).addr
        → p.Alike (sh.ptr c))
    : CoverInv (act.exec sh) new where
  owed n i occupied := by
    rcases step.slotFrom occupied with same | ⟨p, held, addr⟩
    · refine step.owed occupied ?_
      rw [same] at occupied ⊢
      exact cover.owed n i occupied
    · exact ⟨p, addr, .inr held⟩
  covered n i occupied := step.covered list inv cover occupied
  backed n ses c gen p inside reading runs := step.backed list inv cover alike inside reading runs

end step

end ArcSwap
