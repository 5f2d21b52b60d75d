import ArcSwap.Proofs.Steps
import ArcSwap.Proofs.Walks

/-! What a writer inside `Slots::help` knows of the transaction it has read, as long as no
generation is published again that such a writer has read. When `help` returns, no older
transaction on its storage is left without a replacement.
-/

namespace ArcSwap

-----------------------------------------------------------------------------------------
-- The steps of one walk
-----------------------------------------------------------------------------------------

/-- The pass of the loop in `Slots::help` that a walk is in. -/
def Pos.helping : Pos → Option Helping
  | .active h | .differs h | .agrees h | .space h _ | .lost h => some h
  | _ => none

/-- The access does not publish a generation that a writer inside `help` has read. -/
def Act.Fresh (M : Tokens) : Act → Prop
  | .publish n gen =>
      ∀ c p since pos h, .walk c p since pos ∈ M → pos.helping = some h → h.who = n
        → h.control ≠ gen
  | _ => True

/-- The steps that a walk takes for the pointer `p` that was taken out of `c`. -/
inductive PosStep (sh : Shared) (c : CellId) (p : Ptr) : Pos → Act → Pos → Prop
  | head : PosStep sh c p .start .nop (.at sh.head)
  | settle {n j} (there : sh.slot n j = p.addr)
    : PosStep sh c p (.slots n j) (.settle n j) (.slots n (j + 1))
  | skip {n j} (other : sh.slot n j ≠ p.addr)
    : PosStep sh c p (.slots n j) .nop (.slots n (j + 1))
  | leave {n j} (all : HELPING < j)
    : PosStep sh c p (.slots n j) (.leaveWriter n) (.at (sh.next n))
  | help {n h pos} (who : h.who = n) (control : h.control = sh.control n)
    (seen : h.seen = sh.time) (entered : h.entered = sh.time) (dispatch : Dispatched h pos)
    : PosStep sh c p (.node n) .nop pos
  | agrees {h} (same : sh.activeAddr h.who = sh.cellAddr c)
    : PosStep sh c p (.active h) .nop (.agrees h)
  | differs {h} (other : sh.activeAddr h.who ≠ sh.cellAddr c)
    : PosStep sh c p (.active h) .nop (.differs h)
  | unchanged {h} (same : sh.control h.who = h.control)
    : PosStep sh c p (.differs h) .nop (.slots h.who 0)
  | again {h pos} (other : sh.control h.who ≠ h.control)
    (dispatch : Dispatched (h.again sh) pos)
    : PosStep sh c p (.differs h) .nop pos
  | theirSpace {h} : PosStep sh c p (.agrees h) .nop (.space h (sh.spaceOffer h.who))
  | mySpace {h their} : PosStep sh c p (.space h their) .nop (.space h their)
  | handOver {h their mine given} (same : sh.control h.who = h.control)
    : PosStep sh c p (.space h their) (.handOver h.who h.self mine given) (.handed h their)
  | lose {h their} (other : sh.control h.who ≠ h.control)
    : PosStep sh c p (.space h their) .nop (.lost (h.again sh))
  | retry {h pos} (dispatch : Dispatched h pos) : PosStep sh c p (.lost h) .nop pos
  | exchange {h their}
    : PosStep sh c p (.handed h their) (.setOffer h.self their) (.slots h.who 0)

/-- Where a walk comes from that is there after a step. -/
inductive WalkFrom (sh : Shared) (r old : Tokens) (act : Act) (c : CellId) (p : Ptr)
    (since : Nat)
    : Pos → Prop
  | kept {pos} (there : .walk c p since pos ∈ r) : WalkFrom sh r old act c p since pos
  | begun (live : sh.status c = .live) (taken : p.addr = (sh.ptr c).addr)
    (now : since = sh.time + 1)
    : WalkFrom sh r old act c p since .start
  | moved {pos pos'} (before : .walk c p since pos ∈ old) (step : PosStep sh c p pos act pos')
    : WalkFrom sh r old act c p since pos'

section step

variable {sh : Shared} {r old new : Tokens} {act : Act}

/-- One walk moves and the others stay. -/
theorem WalkFrom.of_cons {c d p q since from' pos pos₀ pos₁}
    (inside : .walk c p since pos ∈ .walk d q from' pos₁ ::ₘ r)
    (before : .walk d q from' pos₀ ∈ old) (step : PosStep sh d q pos₀ act pos₁)
    : WalkFrom sh r old act c p since pos := by
  rcases Multiset.mem_cons.mp inside with eq | there
  · cases eq
    exact .moved before step
  · exact .kept there

theorem ProtoStep.walkFrom (step : ProtoStep sh r old act new) {c p since pos}
    (inside : .walk c p since pos ∈ new)
    : WalkFrom sh r old act c p since pos := by
  cases step with
  | closeCell live =>
      simp only [Multiset.mem_cons, reduceCtorEq, false_or] at inside
      rcases inside with eq | inside
      · cases eq
        exact .begun live rfl rfl
      · exact .kept inside
  | write live same =>
      rcases Multiset.mem_cons.mp inside with eq | inside
      · cases eq
        exact .begun live same rfl
      · exact .kept inside
  | head => exact .of_cons inside (Multiset.mem_cons_self _ _) .head
  | settle there => exact .of_cons inside (Multiset.mem_cons_self _ _) (.settle there)
  | skip other => exact .of_cons inside (Multiset.mem_cons_self _ _) (.skip other)
  | leave all => exact .of_cons inside (Multiset.mem_cons_self _ _) (.leave all)
  | help who control seen entered self idle dispatch =>
      exact .of_cons inside (Multiset.mem_cons_self _ _)
        (.help who control seen entered dispatch)
  | agrees same => exact .of_cons inside (Multiset.mem_cons_self _ _) (.agrees same)
  | differs other => exact .of_cons inside (Multiset.mem_cons_self _ _) (.differs other)
  | unchanged same => exact .of_cons inside (Multiset.mem_cons_self _ _) (.unchanged same)
  | again other dispatch =>
      exact .of_cons inside (Multiset.mem_cons_self _ _) (.again other dispatch)
  | theirSpace => exact .of_cons inside (Multiset.mem_cons_self _ _) .theirSpace
  | mySpace => exact .of_cons (by simpa using inside) (Multiset.mem_cons_self _ _) .mySpace
  | handOver same =>
      exact .of_cons (by simpa using inside) (Multiset.mem_cons_self _ _) (.handOver same)
  | lose other => exact .of_cons inside (Multiset.mem_cons_self _ _) (.lose other)
  | retry dispatch => exact .of_cons inside (Multiset.mem_cons_self _ _) (.retry dispatch)
  | exchange => exact .of_cons inside (Multiset.mem_cons_self _ _) .exchange
  | _ => exact .kept (by simpa using inside)

-----------------------------------------------------------------------------------------
-- What is known of a control word that was read
-----------------------------------------------------------------------------------------

/-- The address of an envelope that is handed over has no tag. -/
theorem ProtoStep.envelopeAligned {who self mine given}
    (step : ProtoStep sh r old (.handOver who self mine given) new) (inv : TxInv sh old)
    : tagOf mine = 0 := by
  have sess := inv.sessions
  generalize eq : Act.handOver who self mine given = act at step
  cases step with
  | quiet quiet =>
      subst eq
      cases quiet
  | inc =>
      unfold incAct at eq
      split at eq <;> cases eq
  | handOver =>
      cases eq
      simp only [sessions_walk, sessions_session] at sess
      exact sess.head.2
  | _ => cases eq

/-- A control word with a generation after a step: the node has not changed, or the
generation has just been published.
-/
theorem ProtoStep.generation (step : ProtoStep sh r old act new) (inv : TxInv sh old) {n}
    (gen : tagOf ((act.exec sh).control n) = GEN_TAG)
    : ((act.exec sh).control n = sh.control n ∧ (act.exec sh).txTime n = sh.txTime n)
      ∨ act = .publish n ((act.exec sh).control n) ∧ (act.exec sh).txTime n = sh.time := by
  have sess := inv.sessions
  cases step with
  | quiet quiet => cases act <;> first | exact .inl ⟨rfl, rfl⟩ | cases quiet
  | inc => revert gen; unfold incAct; split <;> exact fun _ => .inl ⟨rfl, rfl⟩
  | newNode =>
      by_cases eq : n = sh.nNodes
      · simp [Act.exec, eq, tagOf, IDLE, GEN_TAG] at gen
      · simp [Act.exec, eq]
  | @publish m c counter =>
      by_cases eq : n = m
      · simp [Act.exec, eq]
      · simp [Act.exec, eq]
  | @unhelped m | @helped m =>
      by_cases eq : n = m
      · simp [Act.exec, eq, tagOf, IDLE, GEN_TAG] at gen
      · simp [Act.exec, eq]
  | @handOver c p since h their mine g =>
      by_cases eq : n = h.who
      · have aligned : tagOf mine = 0 := by
          simp only [sessions_walk, sessions_session] at sess
          exact sess.head.2
        simp only [Act.exec, eq, Function.update_self, tagOf, GEN_TAG, REPLACEMENT_TAG]
          at gen aligned
        omega
      · simp [Act.exec, eq]
  | _ => exact .inl ⟨rfl, rfl⟩

/-- The address that a running transaction has announced does not change. -/
theorem ProtoStep.announced (step : ProtoStep sh r old act new) (inv : TxInv sh old) {n}
    (there : n < sh.nNodes) (gen : tagOf (sh.control n) = GEN_TAG)
    : (act.exec sh).activeAddr n = sh.activeAddr n := by
  have sess := inv.sessions
  cases step with
  | quiet quiet => cases act <;> first | rfl | cases quiet
  | inc => unfold incAct; split <;> rfl
  | newNode => simp [Act.exec, Nat.ne_of_lt there]
  | @announce m c counter linked idle =>
      by_cases eq : n = m
      · subst eq
        rw [(sess.idle idle).control] at gen
        cases gen
      · simp [Act.exec, eq]
  | _ => rfl

/-- The word that a helper has read is still there only if nothing has happened. -/
theorem ProtoStep.current (step : ProtoStep sh r old act new) (list : sh.ListOk)
    (inv : TxInv sh old) (fresh : act.Fresh old) {c p since pos h}
    (walk : .walk c p since pos ∈ old) (helping : pos.helping = some h)
    (tag : tagOf h.control = GEN_TAG) (linked : sh.linked h.who = true)
    (same : (act.exec sh).control h.who = h.control)
    : sh.control h.who = h.control ∧ (act.exec sh).txTime h.who = sh.txTime h.who
      ∧ (act.exec sh).activeAddr h.who = sh.activeAddr h.who := by
  rcases step.generation inv (same ▸ tag) with ⟨control, time⟩ | ⟨published, _⟩
  · rw [same] at control
    exact ⟨control.symm, time, step.announced inv (list.bound linked) (control ▸ tag)⟩
  · rw [published] at fresh
    exact absurd same.symm (fresh c p since pos h walk helping rfl)

/-- What a pass of the loop in `Slots::help` knows of the word it has read. -/
structure Helping.Reads (sh : Shared) (h : Helping) : Prop where
  entered : h.entered ≤ h.seen
  seen : h.seen ≤ sh.time
  published
    : tagOf h.control = GEN_TAG → sh.control h.who = h.control → sh.txTime h.who < h.seen
  /-- A transaction that is older than the call is the one that was read. -/
  first
    : tagOf (sh.control h.who) = GEN_TAG → sh.txTime h.who < h.entered
        → sh.control h.who = h.control

/-- What a walk knows of the transaction on the node it is at. -/
def Pos.Knows (sh : Shared) (c : CellId) : Pos → Prop
  | .active h | .lost h => h.Reads sh
  | .differs h =>
      h.Reads sh
      ∧ (sh.control h.who = h.control → sh.activeAddr h.who ≠ sh.cellAddr c)
  | .agrees h | .space h _ =>
      h.Reads sh
      ∧ (sh.control h.who = h.control → sh.activeAddr h.who = sh.cellAddr c)
  | .handed h _ =>
      (tagOf (sh.control h.who) = GEN_TAG → h.entered ≤ sh.txTime h.who)
      ∧ h.entered ≤ sh.time
  | _ => True

structure PassInv (sh : Shared) (M : Tokens) : Prop where
  running : ∀ n, tagOf (sh.control n) = GEN_TAG → sh.txTime n < sh.time
  pos : ∀ c p since pos, .walk c p since pos ∈ M → pos.Knows sh c

/-- A word that has just been read. -/
theorem Helping.Reads.now {h : Helping} (control : h.control = sh.control h.who)
    (seen : h.seen = sh.time) (entered : h.entered ≤ sh.time)
    (running : tagOf (sh.control h.who) = GEN_TAG → sh.txTime h.who < sh.time)
    : h.Reads (sh.after .nop) where
  entered := seen ▸ entered
  seen := Nat.le_succ_of_le (Nat.le_of_eq seen)
  published tag _ := seen ▸ running (control ▸ tag)
  first _ _ := control.symm

theorem Helping.Reads.keep {h : Helping} (reads : h.Reads sh)
    (step : ProtoStep sh r old act new) (list : sh.ListOk) (inv : TxInv sh old)
    (fresh : act.Fresh old) {c p since pos} (walk : .walk c p since pos ∈ old)
    (helping : pos.helping = some h) (linked : sh.linked h.who = true)
    : h.Reads (sh.after act) where
  entered := reads.entered
  seen := by
    have time : (sh.after act).time = sh.time + 1 := rfl
    have seen := reads.seen
    omega
  published tag same := by
    obtain ⟨before, time, _⟩ := step.current list inv fresh walk helping tag linked same
    exact time ▸ reads.published tag before
  first tag old := by
    have seen := reads.seen
    have entered := reads.entered
    rcases step.generation inv tag with ⟨control, time⟩ | ⟨_, time⟩
    · refine Eq.trans control (reads.first (control ▸ tag) ?_)
      rw [← time]
      exact old
    · have old : (act.exec sh).txTime h.who < h.entered := old
      omega

theorem Pos.Ok.whoLinked {pos : Pos} {c h} (ok : pos.Ok sh c) (helping : pos.helping = some h)
    : sh.linked h.who = true := by
  cases pos <;> cases helping
  · exact ok.1.who
  · exact Helping.Ok.who ok
  · exact ok.1.who
  · exact ok.1.who
  · exact ok.1

/-- What is known of a walk stays true when others take a step. -/
theorem Pos.Knows.keep {c p since} {pos : Pos} (knows : pos.Knows sh c)
    (step : ProtoStep sh r old act new) (list : sh.ListOk) (inv : TxInv sh old)
    (fresh : act.Fresh old) (walk : .walk c p since pos ∈ old)
    (stays : (act.exec sh).cellAddr c = sh.cellAddr c)
    : pos.Knows (sh.after act) c := by
  have ok := inv.walks.pos c p since pos walk
  have reads {h} (helping : pos.helping = some h) (reads : h.Reads sh) : h.Reads (sh.after act) :=
    reads.keep step list inv fresh walk helping (ok.whoLinked helping)
  have stays : (sh.after act).cellAddr c = sh.cellAddr c := stays
  cases pos with
  | start | node | slots | done => trivial
  | active h | lost h => exact reads rfl knows
  | differs h =>
      refine ⟨reads rfl knows.1, ?_⟩
      intro same
      have ok : h.Ok sh := ok
      obtain ⟨before, _, addr⟩ := step.current list inv fresh walk rfl ok.tag ok.who same
      rw [stays]
      exact addr ▸ knows.2 before
  | agrees h =>
      refine ⟨reads rfl knows.1, ?_⟩
      intro same
      obtain ⟨before, _, addr⟩ := step.current list inv fresh walk rfl ok.1.tag ok.1.who same
      rw [stays]
      exact addr ▸ knows.2 before
  | space h their =>
      refine ⟨reads rfl knows.1, ?_⟩
      intro same
      obtain ⟨before, _, addr⟩ := step.current list inv fresh walk rfl ok.1.tag ok.1.who same
      rw [stays]
      exact addr ▸ knows.2 before
  | handed h their =>
      have begun : h.entered ≤ sh.time := knows.2
      refine ⟨?_, Nat.le_succ_of_le begun⟩
      intro gen
      rcases step.generation inv gen with ⟨control, time⟩ | ⟨_, time⟩
      · have before := knows.1 (control ▸ gen)
        exact time ▸ before
      · exact Nat.le_trans begun (Nat.le_of_eq time.symm)

/-- Where the loop goes with a word that has been read before. -/
theorem Dispatched.knows {h : Helping} {pos c} (dispatch : Dispatched h pos)
    (reads : h.Reads sh)
    : pos.Knows sh c := by
  cases dispatch with
  | active => exact reads
  | slots => trivial

/-- A walk knows what it has to know about the place it goes to. -/
theorem PosStep.knows {c p since pos pos'} (move : PosStep sh c p pos act pos')
    (step : ProtoStep sh r old act new) (list : sh.ListOk) (inv : TxInv sh old)
    (fresh : act.Fresh old) (pass : PassInv sh old) (walk : .walk c p since pos ∈ old)
    : pos'.Knows (sh.after act) c := by
  have ok := inv.walks.pos c p since pos walk
  have knows := pass.pos c p since pos walk
  have reads {h} (helping : pos.helping = some h) (reads : h.Reads sh) : h.Reads (sh.after act) :=
    reads.keep step list inv fresh walk helping (ok.whoLinked helping)
  cases move with
  | head => cases sh.head <;> trivial
  | @leave n => cases sh.next n <;> trivial
  | settle | skip | unchanged | exchange => trivial
  | help who control seen entered dispatch =>
      subst who
      exact dispatch.knows (.now control seen (Nat.le_of_eq entered) (pass.running _))
  | agrees same => exact ⟨reads rfl knows, fun _ => same⟩
  | differs other => exact ⟨reads rfl knows, fun _ => other⟩
  | again other dispatch =>
      have begun := Nat.le_trans knows.1.entered knows.1.seen
      exact dispatch.knows (.now rfl rfl begun (pass.running _))
  | theirSpace | mySpace => exact ⟨reads rfl knows.1, knows.2⟩
  | @handOver h their mine given same =>
      have begun := Nat.le_trans knows.1.entered knows.1.seen
      refine ⟨?_, Nat.le_succ_of_le begun⟩
      intro gen
      have aligned := step.envelopeAligned inv
      simp only [Shared.after, Act.exec, Function.update_self, tagOf, GEN_TAG, REPLACEMENT_TAG]
        at gen aligned
      omega
  | lose other =>
      have begun := Nat.le_trans knows.1.entered knows.1.seen
      exact .now rfl rfl begun (pass.running _)
  | retry dispatch => exact dispatch.knows (reads rfl knows)

/-- A step keeps what the passes know. -/
theorem ProtoStep.passes (step : ProtoStep sh r old act new) (list : sh.ListOk)
    (inv : TxInv sh old) (fresh : act.Fresh old) (pass : PassInv sh old)
    : PassInv (sh.after act) new := by
  refine ⟨?_, ?_⟩
  · intro n gen
    have next : (sh.after act).time = sh.time + 1 := rfl
    rcases step.generation inv gen with ⟨control, time⟩ | ⟨_, time⟩
    · have before := pass.running n (control ▸ gen)
      have time : (sh.after act).txTime n = sh.txTime n := time
      omega
    · have time : (sh.after act).txTime n = sh.time := time
      omega
  · intro c p since pos inside
    cases step.walkFrom inside with
    | kept there =>
        have walk := step.frame there
        have stays := (step.walkCell inv.cells there).2
        exact (pass.pos c p since pos walk).keep step list inv fresh walk stays
    | begun => trivial
    | moved walk move => exact move.knows step list inv fresh pass walk

/-- A transaction of the storage at the address is running on the node, and it is older
than `entered`.
-/
structure Shared.RunsOld (sh : Shared) (who : NodeId) (addr entered : Nat) : Prop where
  gen : tagOf (sh.control who) = GEN_TAG
  addr : sh.activeAddr who = addr
  old : sh.txTime who < entered

theorem Pos.ne_at {pos : Pos} {o : Option NodeId} (notDone : pos ≠ .done)
    (notNode : ∀ n, pos ≠ .node n)
    : pos ≠ Pos.at o := by
  cases o with
  | none => exact notDone
  | some n => exact notNode n

/-- The call of `Slots::help` that a walk is in: the node, and when it was called. A walk
that has reached the node calls it now.
-/
def Pos.inHelp (now : Nat) : Pos → Option (NodeId × Nat)
  | .node n => some (n, now)
  | .active h | .differs h | .agrees h | .space h _ | .handed h _ | .lost h =>
      some (h.who, h.entered)
  | _ => none

/-- A call of `help` that ends has left no older transaction on its storage behind. -/
theorem PassInv.returned {M : Tokens} {c p since pos n j who entered} (pass : PassInv sh M)
    (walk : .walk c p since pos ∈ M) (move : PosStep sh c p pos act (.slots n j))
    (call : pos.inHelp sh.time = some (who, entered))
    : ¬ sh.RunsOld who (sh.cellAddr c) entered := by
  have knows := pass.pos c p since pos walk
  have noGen {control : Nat} (other : tagOf control = REPLACEMENT_TAG ∨ control = IDLE)
      : tagOf control ≠ GEN_TAG := by
    rcases other with tag | idle
    · simp [tag, REPLACEMENT_TAG, GEN_TAG]
    · simp [idle, tagOf, IDLE, GEN_TAG]
  intro runs
  generalize slots : Pos.slots n j = pos' at move
  cases move with
  | help at_ control _ _ dispatch =>
      cases call
      cases dispatch with
      | active => cases slots
      | slots other =>
          subst at_
          exact noGen other (control ▸ runs.gen)
  | unchanged same =>
      cases call
      exact knows.2 same runs.addr
  | again other dispatch =>
      cases call
      cases dispatch with
      | active => cases slots
      | slots other => exact noGen other runs.gen
  | retry dispatch =>
      cases call
      cases dispatch with
      | active => cases slots
      | slots other =>
          have reads : Helping.Reads sh _ := knows
          have same := reads.first runs.gen runs.old
          exact noGen other (same ▸ runs.gen)
  | exchange =>
      cases call
      have young := knows.1 runs.gen
      have old := runs.old
      omega
  | head | settle | skip | leave => cases call
  | _ => cases slots

end step

theorem PassInv.init : PassInv .init 0 where
  running n gen := by simp [Shared.init, tagOf, IDLE, GEN_TAG] at gen
  pos c p since pos walk := absurd walk (Multiset.notMem_zero _)

end ArcSwap
