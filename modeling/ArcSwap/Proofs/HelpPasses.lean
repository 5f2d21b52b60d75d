import ArcSwap.Proofs.Assertions
import ArcSwap.Proofs.DebtRuns
import ArcSwap.Proofs.Traversals

/-! How often the loop in `Slots::help` runs. Every pass but two is paid for by a transaction
that a reader has begun on the node during the call, so the walk of a writer ends as long as
readers begin only finitely many transactions.
-/

namespace ArcSwap

open GuardedRuns Chains

-----------------------------------------------------------------------------------------
-- What happens during a walk
-----------------------------------------------------------------------------------------

/-- The accesses of `get_debt`, each of which can count as the beginning of a transaction. -/
inductive Opening
  | announces
  | publishes
deriving DecidableEq

/-- What the bounds are about. -/
inductive Event
  /-- The walk makes a step, or goes on after a call that it has made. -/
  | moves
  /-- The loop in `Slots::help` begins a pass. -/
  | pass
  /-- A transaction begins on the node. -/
  | begins (b : Opening) (n : NodeId)
deriving DecidableEq

def Event.isBegins (b : Opening) : Event → Bool
  | .begins b' _ => b' = b
  | _ => false

/-- The passes that a walk begins when it goes on from this place. -/
def PayPc.passes (sh : Shared) : PayPc → Nat
  | .help _ _ | .lostWait _ => 1
  | .recheck h => if sh.control h.who = h.control then 0 else 1
  | _ => 0

/-- What a walk does when it goes on from this place. -/
def PayPc.events (sh : Shared) (pc : PayPc) : List Event :=
  .moves :: List.replicate (pc.passes sh) .pass

/-- What the next step of a thread is for the walk right above the frames `base`. -/
def walkEvents (sh : Shared) (base : List Frame) : List Frame → List Event
  | .pay _ _ _ _ pc :: rest => if rest = base then pc.events sh else []
  | .ret _ _ :: .pay _ _ _ _ pc :: rest => if rest = base then pc.events sh else []
  | _ => []

/-- What the next step of a thread is for the transactions. -/
def readerEvents (th : Thread) : List Event :=
  match th.stack with
  | .load _ _ loc .announce :: _ => (loc.node th.tls).toList.map (.begins .announces)
  | .load _ _ _ (.publish n _) :: _ => [.begins .publishes n]
  | _ => []

/-- What a step of the program is for the walk of thread `t` right above the frames `base`. -/
def recorded (t : ThreadId) (base : List Frame) (s : State) (l : Label) (_ : State) : List Event :=
  (if l.thread = t then walkEvents s.sh base (s.thr t).stack else [])
    ++ readerEvents (s.thr l.thread)

-----------------------------------------------------------------------------------------
-- Transactions
-----------------------------------------------------------------------------------------

/-- No transaction on the node is about to publish its generation. -/
def Unannounced (M : Tokens) (n : NodeId) : Prop :=
  ∀ c counter, .session n (.announced c counter) ∉ M

/-- The control word has no generation other than this one. -/
def NoNewer (sh : Shared) (n : NodeId) (control : Nat) : Prop :=
  tagOf (sh.control n) = GEN_TAG → sh.control n = control

section step

variable {sh : Shared} {r old new : Tokens} {act : Act} {n : NodeId} {control : Nat}

theorem ProtoStep.unannounced (step : ProtoStep sh r old act new)
    (other : ∀ a, act ≠ .announce n a) (none : Unannounced old n)
    : Unannounced new n := by
  intro c counter inside
  have kept : .session n (.announced c counter) ∉ r := fun inside =>
    none c counter (step.frame inside)
  cases step with
  | @announce m d =>
      rcases Multiset.mem_cons.mp inside with eq | inside
      · cases eq
        exact other _ rfl
      · exact kept inside
  | _ => exact kept (by simpa using inside)

theorem ProtoStep.noNewer (step : ProtoStep sh r old act new) (inv : TxInv sh old)
    (other : ∀ gen, act ≠ .publish n gen) (last : NoNewer sh n control)
    : NoNewer (act.exec sh) n control := by
  intro gen
  rcases step.generation inv gen with ⟨same, _⟩ | ⟨publish, _⟩
  · rw [same] at gen ⊢
    exact last gen
  · exact absurd publish (other _)

/-- As long as a generation is in the control word, no other transaction begins. -/
theorem TxInv.unannounced {M : Tokens} (inv : TxInv sh M) (gen : tagOf (sh.control n) = GEN_TAG)
    : Unannounced M n := by
  intro c counter inside
  obtain ⟨quiet, _⟩ := inv.sessions.ok n _ (mem_sessions.mpr inside)
  rw [quiet.control] at gen
  cases gen

end step

/-- A transaction begins with the first access of `get_debt`. -/
theorem Move.announces {cfg s tls rest δ} (move : Move cfg s tls rest δ) {n a}
    (announces : δ.act = .announce n a)
    : ∃ c began loc, δ.old = [.load c began loc .announce] ∧ loc.node tls = some n := by
  have inc {p} (announces : incAct p = .announce n a) : False := by
    unfold incAct at announces
    split at announces <;> cases announces
  cases move with
  | resume | deliver => cases announces
  | frame step =>
      cases step with
      | get step => cases step <;> cases announces
      | cool step => cases step <;> cases announces
      | dec step => cases step <;> cases announces
      | into step => cases step <;> first | exact (inc announces).elim | cases announces
      | guardDrop step => cases step <;> cases announces
      | pay step => cases step <;> first | exact (inc announces).elim | cases announces
      | load step =>
          cases step with
          | announce node | announcePanic node =>
              cases announces
              exact ⟨_, _, _, rfl, node⟩
          | ownInc => exact (inc announces).elim
          | _ => cases announces
      | _ => cases announces
  | call below step =>
      cases step with
      | clone | cloneArg => exact (inc announces).elim
      | _ => cases announces

section runs

variable {cfg : Config} {s s' : State} {l : Label} {δ : Change} {rest base : List Frame}
  {n : NodeId} {t : ThreadId} {b : Opening}

/-- The accesses of `get_debt` to the node. -/
def Act.opens (n : NodeId) : Opening → Act → Prop
  | .announces, act => ∃ a, act = .announce n a
  | .publishes, act => ∃ gen, act = .publish n gen

theorem Move.opens (move : Move cfg s (s.thr l.thread).tls rest δ)
    (top : (s.thr l.thread).stack = δ.old ++ rest) (opens : δ.act.opens n b)
    : .begins b n ∈ recorded t base s l s' := by
  refine List.mem_append_right _ ?_
  cases b with
  | announces =>
      obtain ⟨a, announces⟩ := opens
      obtain ⟨c, began, loc, old, node⟩ := move.announces announces
      rw [old] at top
      simp [readerEvents, top, node]
  | publishes =>
      obtain ⟨gen, publishes⟩ := opens
      obtain ⟨c, began, loc, g, old, _⟩ := move.publishes publishes
      rw [old] at top
      simp [readerEvents, top]

-----------------------------------------------------------------------------------------
-- Passes
-----------------------------------------------------------------------------------------

/-- The passes so far are paid for. The last one is not as long as the transaction that it has
read is the last one on the node.
-/
def Paid (b : Opening) (s : State) (h : Helping) (passes credit : Nat) : Prop :=
  passes ≤ credit
    ∨ passes ≤ credit + 1 ∧ NoNewer s.sh h.who h.control
      ∧ (b = .announces → Unannounced s.tokens h.who)

theorem Paid.le {h passes credit} (paid : Paid b s h passes credit) : passes ≤ credit + 1 := by
  rcases paid with enough | ⟨almost, _⟩
  · exact Nat.le_succ_of_le enough
  · exact almost

theorem Paid.mono {h passes credit credit'} (paid : Paid b s h passes credit)
    (more : credit ≤ credit')
    : Paid b s h passes credit' := by
  rcases paid with enough | ⟨almost, last⟩
  · exact .inl (Nat.le_trans enough more)
  · exact .inr ⟨by omega, last⟩

/-- A pass that has read a generation. -/
theorem Paid.read {h passes credit} (ok : s.TxOk) (gen : tagOf h.control = GEN_TAG)
    (control : h.control = s.sh.control h.who) (le : passes ≤ credit + 1)
    : Paid b s h passes credit := by
  refine .inr ⟨le, fun _ => control.symm, fun _ => ok.tx.unannounced ?_⟩
  rw [← control]
  exact gen

/-- Another generation in the control word pays for a pass. -/
theorem Paid.newer {h passes credit} (paid : Paid b s h passes credit)
    (gen : tagOf (s.sh.control h.who) = GEN_TAG) (other : s.sh.control h.who ≠ h.control)
    : passes ≤ credit := by
  rcases paid with enough | ⟨_, last, _⟩
  · exact enough
  · exact absurd (last gen) other

/-- Every step keeps the accounts in order. -/
theorem Paid.step (t : ThreadId) (base : List Frame) {h passes credit}
    (paid : Paid b s h passes credit) (ok : s.TxOk) (allowed : NoWrap cfg s l)
    (taken : ArcSwap.step cfg s l = some s')
    : Paid b s' h passes (credit + (recorded t base s l s').count (.begins b h.who)) := by
  obtain ⟨δ, rest, member, top, move, rfl⟩ := step_moves taken
  by_cases opens : δ.act.opens h.who b
  · have event : .begins b h.who ∈ recorded t base s l (s.after l.thread δ rest) :=
      move.opens top opens
    have counted := List.count_pos_iff.mpr event
    exact .inl (Nat.le_trans paid.le (by omega))
  · rcases paid with enough | ⟨almost, last, none⟩
    · exact .inl (Nat.le_trans enough (Nat.le_add_right _ _))
    · obtain ⟨_, r, proto⟩ := ok.after member top move fun fr old =>
        allowed fr rest (by rw [top, old]; rfl)
      have unpublished (gen) : δ.act ≠ .publish h.who gen := by
        intro publishes
        cases b with
        | announces =>
            obtain ⟨c, counter, there⟩ := proto.publisher publishes
            exact none rfl c counter there
        | publishes => exact opens ⟨gen, publishes⟩
      refine .inr ⟨by omega, proto.noNewer ok.tx unpublished last, fun eq => ?_⟩
      subst eq
      exact proto.unannounced (fun a announces => opens ⟨a, announces⟩) (none rfl)

/-- What is known at a place of a walk for which there is credit. -/
def PayPc.Paid (b : Opening) (s : State) (passes credit : Nat) : PayPc → Prop
  | .help _ _ => passes + 2 ≤ credit
  | .activeLoad h | .recheck h | .replaceWait h _ | .theirSpace h _ | .mySpace h _ _
  | .fillSpace h _ _ _ | .offer h _ _ _ => ArcSwap.Paid b s h (passes + 2) credit
  | .lostWait h =>
      passes + 1 ≤ credit
        ∧ (tagOf h.control = GEN_TAG → ArcSwap.Paid b s h (passes + 3) credit)
  | _ => passes ≤ credit

theorem PayPc.Paid.le {pc : PayPc} {passes credit} (paid : pc.Paid b s passes credit)
    : passes ≤ credit := by
  cases pc with
  | help => exact Nat.le_of_add_right_le paid
  | lostWait => exact Nat.le_of_succ_le paid.1
  | activeLoad | recheck | replaceWait | theirSpace | mySpace | fillSpace | offer =>
      have le := ArcSwap.Paid.le paid
      omega
  | _ => exact paid

/-- Every step keeps the accounts of a walk in order. -/
theorem PayPc.Paid.step (t : ThreadId) (base : List Frame) {pc : PayPc} {passes credit more}
    (paid : pc.Paid b s passes credit)
    (ok : s.TxOk) (allowed : NoWrap cfg s l) (taken : ArcSwap.step cfg s l = some s')
    (begun
      : ∀ m, pc.place = some (.inside m)
        → (recorded t base s l s').count (.begins b m) ≤ more)
    : pc.Paid b s' passes (credit + more) := by
  have keep {h} (at' : pc.place = some (.inside h.who)) {passes}
      (paid : ArcSwap.Paid b s h passes credit)
      : ArcSwap.Paid b s' h passes (credit + more) :=
    (paid.step t base ok allowed taken).mono
      (Nat.add_le_add_left (begun _ at') _)
  cases pc with
  | activeLoad | recheck | replaceWait | theirSpace | mySpace | fillSpace | offer =>
      exact keep rfl paid
  | lostWait => exact ⟨Nat.le_add_right_of_le paid.1, fun gen => keep rfl (paid.2 gen)⟩
  | help => exact Nat.le_add_right_of_le paid
  | _ => exact Nat.le_add_right_of_le paid

-----------------------------------------------------------------------------------------
-- Steps of the walk
-----------------------------------------------------------------------------------------

/-- The walk goes on below what it has called, at a place of which something holds, or it
returns.
-/
inductive Continues (holds : Loc → PayPc → Prop) (ends : Prop) : List Frame → Prop
  | goesOn (above) {c p since loc pc} (there : holds loc pc)
    : Continues holds ends (above ++ [.pay c p since loc pc])
  | returns {spec v} (there : ends) : Continues holds ends [.ret spec v]

/-- The nodes that a walk comes to when it goes on from this place. -/
def PayPc.visits : PayPc → Nat
  | .reserve _ => 1
  | _ => 0

/-- The loop in `Slots::help` goes where the word sends it that it has read. -/
theorem Dispatch.paid {c p since loc h frames passes credit}
    (step : Dispatch c p since loc h frames) (enough : passes ≤ credit)
    (paid : tagOf h.control = GEN_TAG → Paid b s h (passes + 2) credit)
    : Continues (fun _ pc => pc.Paid b s passes credit) (passes ≤ credit) frames := by
  cases step with
  | active gen => exact .goesOn [] (paid gen)
  | slots => exact .goesOn [] enough
  | invalid => exact .goesOn [_] enough

theorem PayPc.paid_at {passes credit} (o : Option NodeId) (le : passes ≤ credit)
    : (PayPc.at o).Paid b s passes credit := by
  cases o <;> exact le

theorem PayPc.paid_nextSlot {passes credit n period j} (le : passes ≤ credit)
    : (PayPc.nextSlot n period j).Paid b s passes credit := by
  unfold PayPc.nextSlot
  split <;> exact le

theorem PayStep.paid {tls c p since loc pc act frames passes credit}
    (step : PayStep cfg s.sh tls c p since loc pc act frames) (ok : s.TxOk)
    (paid : pc.Paid b s passes credit)
    : Continues (fun _ pc' => pc'.Paid b s (passes + pc.passes s.sh) (credit + 2 * pc.visits))
        (passes + pc.passes s.sh ≤ credit + 2 * pc.visits) frames := by
  have goes (above) {loc pc'}
      (there : pc'.Paid b s (passes + pc.passes s.sh) (credit + 2 * pc.visits))
      : Continues (fun _ pc' => pc'.Paid b s (passes + pc.passes s.sh) (credit + 2 * pc.visits))
          (passes + pc.passes s.sh ≤ credit + 2 * pc.visits)
          (above ++ [.pay c p since loc pc']) :=
    .goesOn above there
  have le := paid.le
  cases step
  case reserve => exact goes [] (Nat.add_le_add_right le 2)
  case noNode | helpPanic => exact goes [_] (Nat.le_of_succ_le paid)
  case help dispatch =>
    refine dispatch.paid (Nat.le_of_succ_le paid) fun gen => .read ok gen rfl ?_
    exact Nat.succ_le_succ paid
  case unchanged h same =>
    have none : (PayPc.recheck h).passes s.sh = 0 := if_pos same
    rw [none] at goes ⊢
    exact goes [] le
  case again h other dispatch =>
    have one : (PayPc.recheck h).passes s.sh = 1 := if_neg other
    rw [one]
    have almost := ArcSwap.Paid.le paid
    refine dispatch.paid (Nat.le_of_succ_le_succ almost) fun gen => .read ok gen rfl ?_
    exact Nat.succ_le_succ (ArcSwap.Paid.newer paid gen other)
  case lost h r their mine other =>
    have almost := ArcSwap.Paid.le paid
    refine goes [_] ⟨Nat.le_of_succ_le_succ almost, fun gen => .read ok gen rfl ?_⟩
    exact Nat.succ_le_succ (ArcSwap.Paid.newer paid gen other)
  case agrees => exact goes [_, _] paid
  case differs | theirSpace | mySpace | fillSpace => exact goes [] paid
  case helpMyself | envelopeTag | dropVal | abandon | enterGet | enterTmp =>
    exact goes [_] le
  case head | leave => exact goes [] (PayPc.paid_at _ le)
  case skip | bump => exact goes [] (PayPc.paid_nextSlot le)
  all_goals exact goes [] le

theorem ResumeStep.paid {c p since loc pc v frames passes credit}
    (step : ResumeStep s.sh (.pay c p since loc pc) v frames) (paid : pc.Paid b s passes credit)
    : Continues (fun _ pc' => pc'.Paid b s (passes + pc.passes s.sh) (credit + 2 * pc.visits))
        (passes + pc.passes s.sh ≤ credit + 2 * pc.visits) frames := by
  have goes (above) {loc pc'}
      (there : pc'.Paid b s (passes + pc.passes s.sh) (credit + 2 * pc.visits))
      : Continues (fun _ pc' => pc'.Paid b s (passes + pc.passes s.sh) (credit + 2 * pc.visits))
          (passes + pc.passes s.sh ≤ credit + 2 * pc.visits)
          (above ++ [.pay c p since loc pc']) :=
    .goesOn above there
  have le := paid.le
  cases step with
  | payNode => exact goes [] le
  | payReplace => exact goes [] paid
  | payLost dispatch => exact dispatch.paid paid.1 paid.2
  | payDec =>
      unfold finishPay
      split
      · exact goes [_] le
      · exact .returns le
  | payCool | payUnwind => exact .returns le
  | payUnwindTmp => exact goes [_] le
  | unwind step =>
      cases step with
      | pay | payHelp => exact goes [] le

-----------------------------------------------------------------------------------------
-- What is recorded
-----------------------------------------------------------------------------------------

theorem readerEvents_quiet (th : Thread) {e : Event} (other : ∀ b n, e ≠ .begins b n)
    : (readerEvents th).count e = 0 := by
  refine List.count_eq_zero.mpr fun inside => ?_
  unfold readerEvents at inside
  split at inside
  · obtain ⟨n, _, eq⟩ := List.mem_map.mp inside
    exact other _ n eq.symm
  · exact other _ _ (List.mem_singleton.mp inside)
  · cases inside

/-- The walk does nothing while it waits for what it has called. -/
theorem walkEvents_covered {sh fr above} (covered : above ≠ [])
    (waiting : ∀ spec v, above ≠ [.ret spec v])
    : walkEvents sh base (above ++ fr :: base) = [] := by
  generalize stack : above ++ fr :: base = frames
  have length := congrArg List.length stack
  unfold walkEvents
  split
  · split
    · subst base
      simp only [List.length_append, List.length_cons] at length
      exact absurd (List.length_eq_zero_iff.mp (by omega)) covered
    · rfl
  · split
    · subst base
      simp only [List.length_append, List.length_cons] at length
      obtain ⟨top, eq⟩ := List.length_eq_one_iff.mp (show above.length = 1 by omega)
      subst eq
      cases stack
      exact absurd rfl (waiting _ _)
    · rfl
  · rfl

/-- The events of the reader alone. -/
theorem recorded_waits {fr above} (top : (s.thr t).stack = above ++ fr :: base)
    (covered : l.thread = t → above ≠ [] ∧ ∀ spec v, above ≠ [.ret spec v])
    : recorded t base s l s' = readerEvents (s.thr l.thread) := by
  unfold recorded
  split
  · obtain ⟨some, waiting⟩ := covered ‹_›
    rw [top, walkEvents_covered some waiting]
    rfl
  · rfl

/-- The events of the walk alone. -/
theorem recorded_moves {c p since loc pc above} (thread : l.thread = t)
    (top : (s.thr t).stack = above ++ .pay c p since loc pc :: base)
    (moves : above = [] ∨ ∃ spec v, above = [.ret spec v])
    : recorded t base s l s' = pc.events s.sh := by
  subst thread
  rcases moves with rfl | ⟨spec, v, rfl⟩ <;>
    simp [recorded, top, walkEvents, readerEvents]

/-- A step of the program, seen from a walk. -/
inductive WalkStep (cfg : Config) (t : ThreadId) (base : List Frame) (s : State) (l : Label)
    (s' : State) (c : CellId) (p : Ptr) (since : Nat) (loc : Loc) (pc : PayPc) (above : List Frame)
    : Prop
  | waits {above'} (top : (s'.thr t).stack = above' ++ .pay c p since loc pc :: base)
    (events : recorded t base s l s' = readerEvents (s.thr l.thread))
  | moves {tls act frames} (step : PayStep cfg s.sh tls c p since loc pc act frames)
    (thread : l.thread = t) (empty : above = []) (top : (s'.thr t).stack = frames ++ base)
    (events : recorded t base s l s' = pc.events s.sh)
  | answered {v frames} (step : ResumeStep s.sh (.pay c p since loc pc) v frames)
    (top : (s'.thr t).stack = frames ++ base) (events : recorded t base s l s' = pc.events s.sh)

theorem step_walk {c p since loc pc above} (taken : ArcSwap.step cfg s l = some s')
    (top : (s.thr t).stack = above ++ .pay c p since loc pc :: base)
    : WalkStep cfg t base s l s' c p since loc pc above := by
  cases step_follows taken top rfl with
  | waits top' covered => exact .waits top' (recorded_waits top covered)
  | moves thread empty step _ top' =>
      cases step with
      | pay step => exact .moves step thread empty top' (recorded_moves thread top (.inl empty))
  | answered thread ret step _ top' =>
      exact .answered step top' (recorded_moves thread top (.inr ⟨_, _, ret⟩))

theorem PayPc.count_moves (sh : Shared) (pc : PayPc) : (pc.events sh).count .moves = 1 := by
  simp [PayPc.events, List.count_replicate]

theorem PayPc.count_pass (sh : Shared) (pc : PayPc)
    : (pc.events sh).count .pass = pc.passes sh := by
  simp [PayPc.events]

-----------------------------------------------------------------------------------------
-- One call of Slots::help
-----------------------------------------------------------------------------------------

/-- The walk is in `help` on the node `m`, or has just left it. -/
def PayPc.InHelp (m : NodeId) : PayPc → Prop
  | .help n _ | .slots n _ _ => n = m
  | .activeLoad h | .recheck h | .replaceWait h _ | .theirSpace h _ | .mySpace h _ _
  | .fillSpace h _ _ _ | .offer h _ _ _ | .exchange h _ | .lostWait h => h.who = m
  | .unwind _ | .abandon _ _ => True
  | _ => False

/-- The call of `help` by the walk right above the frames `base` is over. -/
def helped (base stack : List Frame) : Prop :=
  returned base stack
    ∨ ∃ c p since loc n period j, stack = .pay c p since loc (.slots n period j) :: base

/-- The frame has left `help` and looks for debts. -/
def Frame.isPaying : Frame → Bool
  | .pay _ _ _ _ (.slots _ _ _) => true
  | _ => false

instance (base : List Frame) : DecidablePred (helped base)
  | [] => .isFalse (by simp [helped, returned])
  | fr :: rest =>
      decidable_of_iff (returned base (fr :: rest) ∨ fr.isPaying = true ∧ rest = base) (by
        refine or_congr_right ?_
        unfold Frame.isPaying
        split
        · simp
        · rename_i other
          simpa using fun c p since loc n period j eq _ => other c p since loc n period j eq)

theorem PayPc.InHelp.place {pc : PayPc} {m} (inside : pc.InHelp m)
    (there : pc.place = some (.inside n))
    : n = m := by
  cases pc with
  | help | slots | activeLoad | recheck | replaceWait | theirSpace | mySpace | fillSpace | offer
  | exchange | lostWait =>
      cases there
      exact inside
  | unwind | abandon => cases there
  | _ => exact inside.elim

theorem Dispatch.inHelp {c p since loc h frames m} (step : Dispatch c p since loc h frames)
    (who : h.who = m)
    : Continues (fun _ pc => pc.InHelp m) True frames := by
  cases step with
  | active | slots => exact .goesOn [] who
  | invalid => exact .goesOn [_] trivial

theorem PayStep.inHelp {tls c p since loc pc act frames m}
    (step : PayStep cfg s.sh tls c p since loc pc act frames) (inside : pc.InHelp m)
    (runs : ∀ n period j, pc ≠ .slots n period j)
    : Continues (fun _ pc => pc.InHelp m) True frames := by
  cases step with
  | noNode | helpPanic | helpMyself | envelopeTag => exact .goesOn [_] trivial
  | help _ dispatch => exact dispatch.inHelp inside
  | again _ dispatch => exact dispatch.inHelp inside
  | agrees => exact .goesOn [_, _] inside
  | lost => exact .goesOn [_] inside
  | abandon => exact .goesOn [_] trivial
  | settle | skip => exact absurd rfl (runs _ _ _)
  | differs | unchanged | theirSpace | mySpace | fillSpace | handOver | exchange =>
      exact .goesOn [] inside
  | _ => exact inside.elim

theorem ResumeStep.inHelp {sh c p since loc pc v frames m}
    (step : ResumeStep sh (.pay c p since loc pc) v frames) (inside : pc.InHelp m)
    : Continues (fun _ pc => pc.InHelp m) True frames := by
  cases step with
  | payReplace => exact .goesOn [] inside
  | payLost dispatch => exact dispatch.inHelp inside
  | payUnwindTmp => exact .goesOn [_] trivial
  | payUnwind => exact .returns trivial
  | unwind step =>
      cases step with
      | pay | payHelp => exact .goesOn [] trivial
  | _ => exact inside.elim

theorem Continues.and {holds holds' : Loc → PayPc → Prop} {ends ends' : Prop} {frames}
    (first : Continues holds ends frames) (second : Continues holds' ends' frames)
    : Continues (fun loc pc => holds loc pc ∧ holds' loc pc) (ends ∧ ends') frames := by
  have last {above above' : List Frame} {fr fr'} (eq : above ++ [fr] = above' ++ [fr'])
      : fr = fr' := by
    obtain ⟨_, last⟩ := List.append_inj' eq rfl
    exact List.head_eq_of_cons_eq last
  have bare (fr : Frame) : [fr] = [] ++ [fr] := rfl
  cases first with
  | @goesOn above c p since loc pc there =>
      generalize eq : above ++ [.pay c p since loc pc] = frames at second
      cases second with
      | goesOn _ there' =>
          cases last eq
          rw [← eq]
          exact .goesOn above ⟨there, there'⟩
      | returns => cases last (eq.trans (bare _))
  | returns there =>
      generalize eq : [Frame.ret _ _] = frames at second
      cases second with
      | goesOn => cases last ((bare _).symm.trans eq)
      | returns there' =>
          rw [← eq]
          exact .returns ⟨there, there'⟩

/-- A call of `help` on `m` right above the frames `base`, with what it has done and what the
transactions on the node have given for it.
-/
inductive Helps (b : Opening) (s : State) (base : List Frame) (m : NodeId) (passes begun : Nat)
    (stack : List Frame)
    : Prop
  | runs (above) {c p since loc pc} (top : stack = above ++ .pay c p since loc pc :: base)
    (inside : pc.InHelp m) (paid : pc.Paid b s passes (begun + 2))
  | ended (back : returned base stack) (enough : passes ≤ begun + 2)

theorem Helps.le {m passes begun stack} (helps : Helps b s base m passes begun stack)
    : passes ≤ begun + 2 := by
  cases helps with
  | runs _ _ _ paid => exact paid.le
  | ended _ enough => exact enough

/-- The walk goes on within `help`. -/
theorem Continues.helps {m passes begun frames}
    (frames' : Continues (fun _ pc => pc.InHelp m ∧ pc.Paid b s passes (begun + 2))
      (True ∧ passes ≤ begun + 2) frames)
    : Helps b s base m passes begun (frames ++ base) := by
  cases frames' with
  | @goesOn above c p since loc pc there =>
      exact .runs _ (List.append_assoc above [_] base) there.1 there.2
  | returns there => exact .ended ⟨_, _, rfl⟩ there.2

theorem Helps.keep {m passes begun stack}
    (helps : Helps b s base m passes begun stack) (ok : s.TxOk)
    (allowed : NoWrap cfg s l) (taken : ArcSwap.step cfg s l = some s')
    : Helps b s' base m passes (begun + (recorded t base s l s').count (.begins b m)) stack := by
  cases helps with
  | runs _ top inside paid =>
      refine .runs _ top inside ?_
      rw [Nat.add_right_comm]
      exact paid.step t base ok allowed taken fun n there => by rw [inside.place there]
  | ended back enough => exact .ended back (by omega)

theorem Helps.step {m passes begun} (helps : Helps b s base m passes begun (s.thr t).stack)
    (ok : s.TxOk) (allowed : NoWrap cfg s l)
    (inside : l.thread = t → ¬ helped base (s.thr t).stack)
    (taken : ArcSwap.step cfg s l = some s')
    : Helps b s' base m (passes + (recorded t base s l s').count .pass)
        (begun + (recorded t base s l s').count (.begins b m)) (s'.thr t).stack := by
  suffices now
      : Helps b s base m (passes + (recorded t base s l s').count .pass) begun
          (s'.thr t).stack from
    now.keep ok allowed taken
  have quiet (events : recorded t base s l s' = readerEvents (s.thr l.thread))
      : (recorded t base s l s').count .pass = 0 := by
    rw [events, readerEvents_quiet _ (by simp)]
  cases helps with
  | ended back enough =>
      have other : l.thread ≠ t := fun eq => inside eq (.inl back)
      have events : recorded t base s l s' = readerEvents (s.thr l.thread) := by
        rw [recorded, if_neg other, List.nil_append]
      rw [step_others taken other.symm, quiet events]
      exact .ended back enough
  | @runs above c p since loc pc top there paid =>
      cases step_walk taken top with
      | waits top' events =>
          rw [quiet events]
          exact .runs _ top' there paid
      | moves step thread empty top' events =>
          have runs (n period j) : pc ≠ .slots n period j := by
            rintro rfl
            exact inside thread (.inr ⟨_, _, _, _, _, _, _, by rw [top, empty]; rfl⟩)
          have visits : pc.visits = 0 := by cases pc <;> first | rfl | exact there.elim
          have paid := step.paid ok paid
          rw [visits] at paid
          rw [top', events, PayPc.count_pass]
          exact ((step.inHelp there runs).and paid).helps
      | answered step top' events =>
          have visits : pc.visits = 0 := by cases pc <;> first | rfl | exact there.elim
          have paid := step.paid paid
          rw [visits] at paid
          rw [top', events, PayPc.count_pass]
          exact ((step.inHelp there).and paid).helps

end runs

end ArcSwap
