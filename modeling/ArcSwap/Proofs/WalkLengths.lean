import ArcSwap.Proofs.HelpPasses

/-! How long the walk of a writer is. It is paid for by the nodes that are in the list when it
reads the head and by the transactions that readers begin.
-/

namespace ArcSwap

open GuardedRuns Chains

section runs

variable {cfg : Config} {s s' : State} {l : Label} {base : List Frame} {t : ThreadId}
  {b : Opening}

-----------------------------------------------------------------------------------------
-- The length of a walk
-----------------------------------------------------------------------------------------

/-- The steps that a walk has made since it read the head of the list: 7 for every pass in
`Slots::help`, and 21 for every other thing to do for a node.
-/
def PayPc.Spent (moves passes nodes : Nat) (loc : Loc) : PayPc → Prop
  | .reserve _ | .dropVal => moves ≤ 7 * passes + 21 * nodes
  | .help _ _ => moves + 21 ≤ 7 * passes + 21 * nodes + 1
  | .activeLoad _ => moves + 28 ≤ 7 * passes + 21 * nodes + 2
  | .recheck _ | .replaceWait _ _ => moves + 28 ≤ 7 * passes + 21 * nodes + 3
  | .theirSpace _ _ => moves + 28 ≤ 7 * passes + 21 * nodes + 4
  | .mySpace _ _ _ => moves + 28 ≤ 7 * passes + 21 * nodes + 5
  | .fillSpace _ _ _ _ => moves + 28 ≤ 7 * passes + 21 * nodes + 6
  | .offer _ _ _ _ => moves + 28 ≤ 7 * passes + 21 * nodes + 7
  | .lostWait _ | .exchange _ _ => moves + 28 ≤ 7 * passes + 21 * nodes + 8
  | .slots _ _ j => j ≤ HELPING ∧ moves + 21 ≤ 7 * passes + 21 * nodes + 2 + 2 * j
  | .bump _ _ j => j ≤ HELPING ∧ moves + 21 ≤ 7 * passes + 21 * nodes + 3 + 2 * j
  | .leave _ _ => moves + 21 ≤ 7 * passes + 21 * nodes + 20
  | .decWait => moves ≤ 7 * passes + 21 * nodes + 1
  | .coolWait => moves ≤ 7 * passes + 21 * nodes + 2
  | .unwind (some _) => moves + 10 ≤ 7 * passes + 21 * nodes
  | .abandon _ _ => moves + 9 ≤ 7 * passes + 21 * nodes
  | .unwind none =>
      match loc with
      | .tmp (some _) => moves + 8 ≤ 7 * passes + 21 * nodes
      | _ => moves + 7 ≤ 7 * passes + 21 * nodes
  | .enter | .nodeWait | .inc | .head => False

theorem PayPc.spent_at {moves passes nodes loc} (o : Option NodeId)
    (spent : moves ≤ 7 * passes + 21 * nodes)
    : (PayPc.at o).Spent moves passes nodes loc := by
  cases o <;> exact spent

theorem PayPc.spent_nextSlot {moves passes nodes loc n period j} (inside : j ≤ HELPING)
    (spent : moves + 21 ≤ 7 * passes + 21 * nodes + 4 + 2 * j)
    : (PayPc.nextSlot n period j).Spent moves passes nodes loc := by
  unfold PayPc.nextSlot
  split
  · exact ⟨by omega, by omega⟩
  · simp only [HELPING] at inside
    simp only [PayPc.Spent]
    omega

theorem Dispatch.spent {c p since loc h frames moves passes nodes}
    (step : Dispatch c p since loc h frames) (spent : moves + 28 ≤ 7 * passes + 21 * nodes + 2)
    : Continues (fun loc pc => pc.Spent moves passes nodes loc)
        (moves ≤ 7 * passes + 21 * nodes + 3) frames := by
  cases step with
  | active => exact .goesOn [] spent
  | slots => exact .goesOn [] ⟨Nat.zero_le _, by omega⟩
  | invalid =>
      refine .goesOn [_] ?_
      simp only [PayPc.Spent]
      omega

theorem PayStep.spent {tls c p since loc pc act frames moves passes nodes}
    (step : PayStep cfg s.sh tls c p since loc pc act frames)
    (spent : pc.Spent moves passes nodes loc)
    : Continues
        (fun loc pc' =>
          pc'.Spent (moves + 1) (passes + pc.passes s.sh) (nodes + pc.visits) loc)
        (moves + 1 ≤ 7 * (passes + pc.passes s.sh) + 21 * (nodes + pc.visits) + 3) frames := by
  have goes (above) {loc pc'}
      (there : pc'.Spent (moves + 1) (passes + pc.passes s.sh) (nodes + pc.visits) loc)
      : Continues
          (fun loc pc' =>
            pc'.Spent (moves + 1) (passes + pc.passes s.sh) (nodes + pc.visits) loc)
          (moves + 1 ≤ 7 * (passes + pc.passes s.sh) + 21 * (nodes + pc.visits) + 3)
          (above ++ [.pay c p since loc pc']) :=
    .goesOn above there
  cases step
  case enter | enterGet | enterTmp | inc | head => exact spent.elim
  case noNode | helpPanic | helpMyself | envelopeTag | lost | dropVal =>
    exact goes [_]
      (by simp only [PayPc.Spent, PayPc.passes, PayPc.visits] at spent ⊢; omega)
  case help dispatch =>
    exact dispatch.spent
      (by simp only [PayPc.Spent, PayPc.passes, PayPc.visits] at spent ⊢; omega)
  case agrees =>
    exact goes [_, _]
      (by simp only [PayPc.Spent, PayPc.passes, PayPc.visits] at spent ⊢; omega)
  case unchanged h same =>
    have none : (PayPc.recheck h).passes s.sh = 0 := if_pos same
    rw [none] at goes ⊢
    refine goes [] ⟨Nat.zero_le _, ?_⟩
    simp only [PayPc.Spent, PayPc.visits] at spent ⊢
    omega
  case again h other dispatch =>
    have one : (PayPc.recheck h).passes s.sh = 1 := if_neg other
    rw [one]
    exact dispatch.spent (by simp only [PayPc.Spent, PayPc.visits] at spent ⊢; omega)
  case exchange =>
    refine goes [] ⟨Nat.zero_le _, ?_⟩
    simp only [PayPc.Spent, PayPc.passes, PayPc.visits] at spent ⊢
    omega
  case settle =>
    refine goes [] ⟨spent.1, ?_⟩
    simp only [PayPc.Spent, PayPc.passes, PayPc.visits] at spent ⊢
    omega
  case skip n period j other =>
    refine goes [] (PayPc.spent_nextSlot spent.1 ?_)
    simp only [PayPc.Spent, PayPc.passes, PayPc.visits] at spent ⊢
    omega
  case bump =>
    refine goes [] (PayPc.spent_nextSlot spent.1 ?_)
    simp only [PayPc.Spent, PayPc.passes, PayPc.visits] at spent ⊢
    omega
  case leave =>
    refine goes [] (PayPc.spent_at _ ?_)
    simp only [PayPc.Spent, PayPc.passes, PayPc.visits] at spent ⊢
    omega
  case abandon =>
    refine goes [_] ?_
    simp only [PayPc.Spent, PayPc.passes, PayPc.visits] at spent ⊢
    split <;> omega
  all_goals
    exact goes []
      (by simp only [PayPc.Spent, PayPc.passes, PayPc.visits] at spent ⊢; omega)

theorem ResumeStep.spent {c p since loc pc v frames moves passes nodes}
    (step : ResumeStep s.sh (.pay c p since loc pc) v frames)
    (spent : pc.Spent moves passes nodes loc)
    : Continues
        (fun loc pc' =>
          pc'.Spent (moves + 1) (passes + pc.passes s.sh) (nodes + pc.visits) loc)
        (moves + 1 ≤ 7 * (passes + pc.passes s.sh) + 21 * (nodes + pc.visits) + 3) frames := by
  have goes (above) {loc pc'}
      (there : pc'.Spent (moves + 1) (passes + pc.passes s.sh) (nodes + pc.visits) loc)
      : Continues
          (fun loc pc' =>
            pc'.Spent (moves + 1) (passes + pc.passes s.sh) (nodes + pc.visits) loc)
          (moves + 1 ≤ 7 * (passes + pc.passes s.sh) + 21 * (nodes + pc.visits) + 3)
          (above ++ [.pay c p since loc pc']) :=
    .goesOn above there
  cases step with
  | payNode => exact spent.elim
  | payReplace => exact goes [] (Nat.succ_le_succ spent)
  | payLost dispatch =>
      exact dispatch.spent
        (by simp only [PayPc.Spent, PayPc.passes, PayPc.visits] at spent ⊢; omega)
  | payDec =>
      unfold finishPay
      split
      · exact goes [_] (Nat.succ_le_succ spent)
      · exact .returns (Nat.le_succ_of_le (Nat.succ_le_succ spent))
  | payCool => exact .returns (Nat.succ_le_succ spent)
  | payUnwind bare =>
      refine .returns ?_
      cases loc with
      | tls =>
          simp only [PayPc.Spent, PayPc.passes, PayPc.visits] at spent ⊢
          omega
      | tmp node =>
          cases node with
          | some n => exact absurd rfl (bare n)
          | none =>
              simp only [PayPc.Spent, PayPc.passes, PayPc.visits] at spent ⊢
              omega
  | payUnwindTmp =>
      exact goes [_]
        (by simp only [PayPc.Spent, PayPc.passes, PayPc.visits] at spent ⊢; omega)
  | unwind step =>
      cases step with
      | pay | payHelp =>
          exact goes []
            (by simp only [PayPc.Spent, PayPc.passes, PayPc.visits] at spent ⊢; omega)

theorem PayPc.Spent.le {pc : PayPc} {loc moves passes nodes}
    (spent : pc.Spent moves passes nodes loc)
    : moves ≤ 7 * passes + 21 * nodes + 3 := by
  cases pc with
  | unwind held =>
      cases held with
      | some => exact Nat.le_trans (Nat.le_of_add_right_le spent) (by omega)
      | none =>
          simp only [PayPc.Spent] at spent
          split at spent <;> omega
  | slots n period j | bump n period j =>
      obtain ⟨inside, spent⟩ := spent
      simp only [HELPING] at inside
      omega
  | enter | nodeWait | inc | head => exact spent.elim
  | _ =>
      simp only [PayPc.Spent] at spent
      omega

-----------------------------------------------------------------------------------------
-- The whole walk
-----------------------------------------------------------------------------------------

/-- A walk right above the frames `base` that has read the head of the list, with what it has
done and what the transactions on all nodes have given for it.
-/
inductive Walks (b : Opening) (s : State) (base : List Frame) (moves passes nodes begun : Nat)
    (stack : List Frame)
    : Prop
  | runs (above) {c p since loc pc} (top : stack = above ++ .pay c p since loc pc :: base)
    (spent : pc.Spent moves passes nodes loc) (paid : pc.Paid b s passes (2 * nodes + begun))
  | ended (back : returned base stack) (spent : moves ≤ 7 * passes + 21 * nodes + 3)
    (enough : passes ≤ 2 * nodes + begun)

theorem Walks.le {moves passes nodes begun stack}
    (walks : Walks b s base moves passes nodes begun stack)
    : passes ≤ 2 * nodes + begun ∧ moves ≤ 35 * nodes + 7 * begun + 3 := by
  cases walks with
  | runs _ _ spent paid =>
      have le := spent.le
      have enough := paid.le
      exact ⟨enough, by omega⟩
  | ended _ spent enough => exact ⟨enough, by omega⟩

theorem Continues.walks {moves passes nodes begun frames}
    (frames' : Continues (fun loc pc => pc.Spent moves passes nodes loc
        ∧ pc.Paid b s passes (2 * nodes + begun))
      (moves ≤ 7 * passes + 21 * nodes + 3 ∧ passes ≤ 2 * nodes + begun) frames)
    : Walks b s base moves passes nodes begun (frames ++ base) := by
  cases frames' with
  | @goesOn above c p since loc pc there =>
      exact .runs _ (List.append_assoc above [_] base) there.1 there.2
  | returns there => exact .ended ⟨_, _, rfl⟩ there.1 there.2

theorem Walks.keep {moves passes nodes begun stack}
    (walks : Walks b s base moves passes nodes begun stack) (ok : s.TxOk)
    (allowed : NoWrap cfg s l) (taken : ArcSwap.step cfg s l = some s')
    : Walks b s' base moves passes nodes
        (begun + (recorded t base s l s').countP (Event.isBegins b)) stack := by
  cases walks with
  | runs _ top spent paid =>
      refine .runs _ top spent ?_
      rw [← Nat.add_assoc]
      refine paid.step t base ok allowed taken fun m _ => ?_
      exact List.countP_mono_left fun e _ same => by
        rw [eq_of_beq same]
        exact decide_eq_true rfl
  | ended back spent enough => exact .ended back spent (by omega)

/-- The visits of a traversal are counted by the places of the walk. -/
theorem visited_moves {c p since loc pc} (thread : l.thread = t)
    (top : (s.thr t).stack = .pay c p since loc pc :: base)
    : (visited t base s l s').length = pc.visits := by
  rw [visited, if_pos thread, top, visit, if_pos rfl]
  cases pc <;> rfl

theorem visited_waits {fr above} (top : (s.thr t).stack = above ++ fr :: base)
    (covered : l.thread = t → above ≠ [])
    : visited t base s l s' = [] := by
  unfold visited
  split
  · rw [top]
    exact visit_covered (covered ‹_›)
  · rfl

theorem Walks.step {moves passes nodes begun}
    (walks : Walks b s base moves passes nodes begun (s.thr t).stack) (ok : s.TxOk)
    (allowed : NoWrap cfg s l) (inside : l.thread = t → ¬ returned base (s.thr t).stack)
    (taken : ArcSwap.step cfg s l = some s')
    : Walks b s' base (moves + (recorded t base s l s').count .moves)
        (passes + (recorded t base s l s').count .pass) (nodes + (visited t base s l s').length)
        (begun + (recorded t base s l s').countP (Event.isBegins b)) (s'.thr t).stack := by
  suffices now
      : Walks b s base (moves + (recorded t base s l s').count .moves)
          (passes + (recorded t base s l s').count .pass) (nodes + (visited t base s l s').length)
          begun (s'.thr t).stack from
    now.keep ok allowed taken
  have quiet (events : recorded t base s l s' = readerEvents (s.thr l.thread))
      : (recorded t base s l s').count .moves = 0 ∧ (recorded t base s l s').count .pass = 0 := by
    rw [events, readerEvents_quiet _ (by simp), readerEvents_quiet _ (by simp)]
    exact ⟨rfl, rfl⟩
  cases walks with
  | ended back spent enough =>
      have other : l.thread ≠ t := fun eq => inside eq back
      have events : recorded t base s l s' = readerEvents (s.thr l.thread) := by
        rw [recorded, if_neg other, List.nil_append]
      rw [step_others taken other.symm, (quiet events).1, (quiet events).2, visited, if_neg other]
      exact .ended back spent enough
  | @runs above c p since loc pc top spent paid =>
      cases step_follows taken top rfl with
      | waits top' covered =>
          have events : recorded t base s l s' = _ := recorded_waits top covered
          rw [(quiet events).1, (quiet events).2, visited_waits top fun eq => (covered eq).1]
          exact .runs _ top' spent paid
      | moves thread empty step _ top' =>
          cases step with
          | pay step =>
              subst empty
              rw [top', recorded_moves thread top (.inl rfl), PayPc.count_moves, PayPc.count_pass,
                visited_moves thread top]
              have paid := step.paid ok paid
              rw [Nat.add_right_comm, ← Nat.mul_add] at paid
              exact ((step.spent spent).and paid).walks
      | answered thread ret step _ top' =>
          have visits : pc.visits = 0 := by
            cases pc <;> first | rfl | (cases step with | unwind step => cases step)
          rw [top', recorded_moves thread top (.inr ⟨_, _, ret⟩), PayPc.count_moves,
            PayPc.count_pass, visited_waits top fun _ => by simp [ret]]
          have paid := step.paid paid
          have spent := step.spent spent
          rw [visits] at paid spent
          exact (spent.and paid).walks

/-- The walk from the step on that reads the head of the list. -/
theorem Walks.start {s₁ c p since loc}
    (first : HeadRead base s s₁ t (.pay c p since loc .head))
    : Walks b s₁ base 0 0 0 0 (s₁.thr t).stack := by
  cases first with
  | pay _ top =>
      exact .runs [] top (PayPc.spent_at _ (Nat.zero_le _)) (PayPc.paid_at _ (Nat.zero_le _))

/-- What a walk has done at most, if its traversal has `k` nodes before it at most. -/
theorem Walks.within {s₁ k log}
    (calm : ∀ s', Reaches (ArcSwap.step cfg) (NoWrap cfg) s₁ s' → s'.TxOk)
    (start : Walks b s₁ base 0 0 0 0 (s₁.thr t).stack)
    (few : ∀ calls s', Within cfg (NoWrap cfg) t (returned base) (visited t base) s₁ calls s'
      → calls.length ≤ k)
    (run : Within cfg (NoWrap cfg) t (returned base) (recorded t base) s₁ log s')
    : log.count .pass ≤ 2 * k + log.countP (Event.isBegins b)
      ∧ log.count .moves ≤ 35 * k + 7 * log.countP (Event.isBegins b) + 3 := by
  -- The closure calls of the traversal are followed beside the events.
  obtain ⟨calls, run', walks⟩
      : ∃ calls, Within cfg (NoWrap cfg) t (returned base) (visited t base) s₁ calls s'
          ∧ Walks b s' base (log.count .moves) (log.count .pass) calls.length
              (log.countP (Event.isBegins b)) (s'.thr t).stack := by
    refine run.invariant
      (I := fun log s' => ∃ calls,
        Within cfg (NoWrap cfg) t (returned base) (visited t base) s₁ calls s'
          ∧ Walks b s' base (log.count .moves) (log.count .pass) calls.length
              (log.countP (Event.isBegins b)) (s'.thr t).stack) ⟨[], .start, start⟩ ?_
    intro log s₂ l₂ s₃ between inv inside allowed taken
    obtain ⟨calls, run', walks⟩ := inv
    refine ⟨_, run'.step inside allowed taken, ?_⟩
    rw [List.count_append, List.count_append, List.countP_append, List.length_append]
    exact walks.step (calm s₂ between) allowed inside taken
  have visits := few calls s' run'
  obtain ⟨passes, moves⟩ := walks.le
  exact ⟨by omega, by omega⟩

/-- As long as no generation counter wraps, a call of `Slots::help` on the node `m` makes at most
two passes more than transactions begin on `m` during the call, whichever access of `get_debt`
counts as the beginning. A walk makes two passes for each node that is in the list when it reads
the head and one for each transaction that begins on any node, at most, and it ends: it makes a
step or goes on after a call at most 35 times for each of these nodes, 7 times for each of these
transactions, and 3 times at the end.
-/
theorem help_paid_by_readers {n}
    (reached : Reaches (ArcSwap.step cfg) (NoWrap cfg) (State.init n) s)
    : (∀ t c p since loc m period base log s',
        (s.thr t).stack = .pay c p since loc (.help m period) :: base
          → Within cfg (NoWrap cfg) t (helped base) (recorded t base) s log s'
          → ∀ b, log.count .pass ≤ log.count (.begins b m) + 2)
      ∧ ∀ t l s₁ c p since loc base, l.thread = t
          → (s.thr t).stack = .pay c p since loc .head :: base
          → NoWrap cfg s l → ArcSwap.step cfg s l = some s₁
          → ∃ nodes, Chain s.sh.next s.sh.head nodes
              ∧ ∀ log s', Within cfg (NoWrap cfg) t (returned base)
                (recorded t base) s₁ log s'
                → ∀ b, log.count .pass ≤ 2 * nodes.length + log.countP (Event.isBegins b)
                  ∧ log.count .moves
                    ≤ 35 * nodes.length + 7 * log.countP (Event.isBegins b) + 3 := by
  have calm {s'} (later : Reaches (ArcSwap.step cfg) (NoWrap cfg) s s') : s'.TxOk :=
    txOk_of_reaches (fun _ _ => id) (reached.trans later)
  constructor
  · intro t c p since loc m period base log s' top run b
    suffices helps
        : Helps b s' base m (log.count .pass) (log.count (.begins b m)) (s'.thr t).stack from
      helps.le
    refine run.invariant
      (I := fun log s' =>
        Helps b s' base m (log.count .pass) (log.count (.begins b m)) (s'.thr t).stack)
      (.runs [] top rfl (Nat.le_refl 2)) ?_
    intro log s₁ l s₂ between helps inside allowed taken
    rw [List.count_append, List.count_append]
    exact helps.step (calm between) allowed inside taken
  · intro t l s₁ c p since loc base thread top allowed taken
    obtain ⟨nodes, listed⟩ := listed_of_reaches reached
    refine ⟨nodes, listed.chain, fun log s' run b => ?_⟩
    have first : Reaches (ArcSwap.step cfg) (NoWrap cfg) s s₁ := .step .start allowed taken
    refine Walks.within (fun s' later => calm (first.trans later))
      (.start (step_headRead thread top rfl taken)) ?_ run
    intro calls s' run'
    have inv := Traverses.within reached thread top rfl allowed taken listed run'
    exact inv.initial.length_le

end runs

/-- A store that is about to read the head of the list. First in the list is the node of another
thread, with a transaction on another storage.
-/
def helpSchedule : List Label :=
  [.call 0 (.null 0), .call 0 (.new 0 100 false), .call 0 (.null 0), .call 0 (.new 1 200 false),
    .call 0 (.null 0), .call 0 (.store 0 2)]
    ++ List.replicate 7 (.run 0 false)
    ++ [.call 1 (.load 1)]
    ++ List.replicate 9 (.run 1 false)

/-- The reader ends its transaction and begins the next one while the writer is in its first pass.
-/
def retrySchedule : List Label :=
  [.run 0 false, .run 0 false]
    ++ List.replicate 6 (.run 1 false)
    ++ [.call 1 (.load 1)]
    ++ List.replicate 3 (.run 1 false)
    ++ List.replicate 3 (.run 0 false)

/-- The second pass is paid for by the transaction that the reader has begun. -/
theorem help_paid_by_readers_retry
    : ∃ (s₁ s s' : State) (base : List Frame) (nodes : List NodeId) (log walk : List Event),
        Within ⟨64, true⟩ (NoWrap ⟨64, true⟩) 0 (helped base) (recorded 0 base) s log s'
          ∧ log.count .pass = 2 ∧ log.count (.begins .announces 1) = 1
          ∧ log.count .pass ≤ log.count (.begins .announces 1) + 2
          ∧ Within ⟨64, true⟩ (NoWrap ⟨64, true⟩) 0 (returned base)
            (recorded 0 base) s₁ walk s'
          ∧ walk.count .moves = 6
          ∧ walk.count .pass
            ≤ 2 * nodes.length + walk.countP (Event.isBegins .announces)
          ∧ walk.count .moves
            ≤ 35 * nodes.length + 7 * walk.countP (Event.isBegins .announces) + 3 := by
  let cfg : Config := ⟨64, true⟩
  let base : List Frame := [.swapWait 0, .storeWait 0]
  let check (s : State) (l : Label) : Bool := wrapsNothing cfg s l && unended 0 (helped base) s l
  have sound
      : ∀ s l, check s l = true
        → (l.thread = 0 → ¬ helped base (s.thr 0).stack) ∧ NoWrap cfg s l :=
    unended_sound fun _ _ => noWrap_of_wrapsNothing
  have ran
      : ((runChecked (step cfg) (wrapsNothing cfg) (State.init 2) helpSchedule).bind fun s₀ =>
          (step cfg s₀ (.run 0 false)).bind fun s₁ =>
          (step cfg s₁ (.run 0 false)).bind fun s =>
          (runNoted cfg check (recorded 0 base) s retrySchedule).map fun r =>
          ((s₀.thr 0).stack, (s₁.thr 0).stack, (s.thr 0).stack, r.1))
        = some (.pay 0 ⟨0, 0, 0⟩ 7 .tls .head :: base,
            .pay 0 ⟨0, 0, 0⟩ 7 .tls (.reserve 1) :: base,
            .pay 0 ⟨0, 0, 0⟩ 7 .tls (.help 1 0) :: base,
            [.moves, .pass, .moves, .begins .announces 1, .begins .publishes 1, .moves, .pass,
              .moves, .moves]) := by
    decide +kernel
  obtain ⟨s₀, ran₀, ran⟩ := Option.bind_eq_some_iff.mp ran
  obtain ⟨s₁, taken₁, ran⟩ := Option.bind_eq_some_iff.mp ran
  obtain ⟨s, taken, ran⟩ := Option.bind_eq_some_iff.mp ran
  obtain ⟨⟨log, s'⟩, ran, eq⟩ := Option.map_eq_some_iff.mp ran
  simp only [Prod.mk.injEq] at eq
  obtain ⟨top₀, top₁, top, log_eq⟩ := eq
  have quiet {s : State} {pc} (top : (s.thr 0).stack = .pay 0 ⟨0, 0, 0⟩ 7 .tls pc :: base)
      : NoWrap cfg s (.run 0 false) :=
    noWrap_of_wrapsNothing (by simp [wrapsNothing, Label.thread, top, Frame.wraps])
  have reached₀ := reaches_of_runChecked (fun _ _ => noWrap_of_wrapsNothing) ran₀
  have reached : Reaches (step cfg) (NoWrap cfg) (State.init 2) s :=
    .step (.step reached₀ (quiet top₀) taken₁) (quiet top₁) taken
  have inside : ¬ returned base (s₁.thr 0).stack := by
    rw [top₁]
    intro back
    obtain ⟨_, _, eq⟩ := back
    cases eq
  have enters : recorded 0 base s₁ (.run 0 false) s = [.moves] := by
    simp [recorded, Label.thread, top₁, walkEvents, readerEvents, PayPc.events, PayPc.passes]
  have help : Within cfg (NoWrap cfg) 0 (helped base) (recorded 0 base) s log s' :=
    Within.extend sound .start ran
  have walk
      : Within cfg (NoWrap cfg) 0 (returned base) (recorded 0 base) s₁ (.moves :: log) s' := by
    have first : Within cfg (NoWrap cfg) 0 (returned base) (recorded 0 base) s₁ ([] ++ _) s :=
      .step .start (fun _ => inside) (quiet top₁) taken
    rw [enters] at first
    refine Within.extend (fun s l checked => ?_) first ran
    exact (sound s l checked).imp_left fun away thread back => away thread (.inl back)
  have bounded := (help_paid_by_readers reached).1 0 _ _ _ _ _ _ base log s' top help
  obtain ⟨nodes, _, ends⟩ :=
    (help_paid_by_readers reached₀).2 0 _ s₁ _ _ _ _ base rfl top₀ (quiet top₀) taken₁
  obtain ⟨passes, moves⟩ := ends _ s' walk .announces
  refine ⟨s₁, s, s', base, nodes, log, _, help, ?_, ?_, bounded .announces, walk, ?_,
    passes, moves⟩
  all_goals
    subst log_eq
    decide

-----------------------------------------------------------------------------------------
-- The list and its traversals
-----------------------------------------------------------------------------------------

/-- What a traversal of the list `nodes` does that thread `t` makes right above the frames `base`,
from the state `s₁` on, in which it has read the head.
-/
structure Traversal (cfg : Config) (t : ThreadId) (base : List Frame) (nodes : List NodeId)
    (s₁ : State)
    : Prop where
  /-- The closure is called for nodes of the list only, in their order and once for each. -/
  calls : ∀ log s', Within cfg (fun _ _ => True) t (returned base) (visited t base) s₁ log s'
    → log.IsPrefix nodes
  /-- A traversal that has ended and was not stopped has called its closure for all nodes. -/
  complete : ∀ log s', Within cfg (fun _ _ => True) t (returned base) (visited t base) s₁ log s'
    → unstopped base (s'.thr t).stack → log = nodes
  /-- The traversal of `Node::get` makes 4 steps at most for each node. Until it is over, its thread
  can make the next one.
  -/
  search : ∀ tmp pc, (s₁.thr t).stack = .get tmp pc :: base
    → ∀ log s', Within cfg (fun _ _ => True) t (searched base) (ownSteps t) s₁ log s'
      → log.length ≤ 4 * nodes.length
        ∧ (¬ searched base (s'.thr t).stack
          → ∀ spurious, ∃ s'', step cfg s' (.run t spurious) = some s'')
  /-- The traversal of `pay_all` makes a step or goes on after a call at most 35 times for each
  node, 7 times for each transaction that a reader begins, and 3 times at the end, as long as no
  generation counter wraps.
  -/
  walk : ∀ n c p since loc pc, Reaches (step cfg) (NoWrap cfg) (State.init n) s₁
    → (s₁.thr t).stack = .pay c p since loc pc :: base
    → ∀ log s', Within cfg (NoWrap cfg) t (returned base) (recorded t base) s₁ log s'
      → ∀ b, log.count .moves ≤ 35 * nodes.length + 7 * log.countP (Event.isBegins b) + 3

section lists

variable {cfg : Config} {n : Nat} {s s₁ : State} {l : Label} {t : ThreadId} {fr : Frame}
  {base : List Frame} {nodes : List NodeId}

/-- Every traversal that reads the head of the list `nodes` ends. -/
theorem Shared.Listed.traversal (listed : s.sh.Listed nodes)
    (reached : Reaches (step cfg) (fun _ _ => True) (State.init n) s) (thread : l.thread = t)
    (top : (s.thr t).stack = fr :: base) (reads : fr.readsHead = true)
    (taken : step cfg s l = some s₁)
    : Traversal cfg t base nodes s₁ where
  calls log s' run := (Traverses.within reached thread top reads trivial taken listed run).initial
  complete log s' run ended :=
    (Traverses.within reached thread top reads trivial taken listed run).complete ended
  search tmp pc top₁ log s' run := by
    cases step_headRead thread top reads taken with
    | pay _ top' => cases top'.symm.trans top₁
    | get =>
        obtain ⟨calls, few, searches⟩ :=
          Searches.within reached thread top trivial taken listed run
        have moves := searches.le
        refine ⟨by omega, searches.goesOn ?_⟩
        have first : Reaches (step cfg) (fun _ _ => True) s s₁ := .step .start trivial taken
        obtain ⟨_, _, member, _⟩ := step_moves taken
        rw [threads_of_reaches run.reaches, threads_of_reaches first]
        exact thread ▸ member
  walk n' c p since loc pc calm top₁ log s' run b := by
    cases step_headRead thread top reads taken with
    | get _ top' => cases top'.symm.trans top₁
    | pay =>
        have start : Walks b s₁ base 0 0 0 0 (s₁.thr t).stack :=
          .start (step_headRead thread top rfl taken)
        refine (Walks.within (fun s' later => ?_) start ?_ run).2
        · exact txOk_of_reaches (fun _ _ => id) (calm.trans later)
        · intro calls s' run'
          have inv := Traverses.within reached thread top rfl trivial taken listed
            (run'.mono fun _ _ _ => trivial)
          exact inv.initial.length_le

/-- In every run the list ends and has no node twice, every node that `Node::get` returns is in
it and none that it has not prepended yet, and later lists end with the earlier ones. A
traversal ends, and it calls its closure for the nodes that were in the list when it read the
head, in their order, and for all of them if it is not stopped.
-/
theorem list_only_grows (reached : Reaches (step cfg) (fun _ _ => True) (State.init n) s)
    : ∃ nodes, Chain s.sh.next s.sh.head nodes ∧ nodes.Nodup
      ∧ (∀ t < s.nThr, ∀ spec m tmp rest,
          (s.thr t).stack = .ret spec (.node m tmp) :: rest → m ∈ nodes)
      ∧ (∀ t < s.nThr, ∀ tmp m head rest,
          (s.thr t).stack = .get tmp (.link m head) :: rest → m ∉ nodes)
      ∧ (∀ s', Reaches (step cfg) (fun _ _ => True) s s'
          → ∃ newer, Chain s'.sh.next s'.sh.head (newer ++ nodes))
      ∧ ∀ t l s₁ fr base, l.thread = t → (s.thr t).stack = fr :: base
        → fr.readsHead = true
          → step cfg s l = some s₁ → Traversal cfg t base nodes s₁ := by
  have pool := poolOk_of_reaches reached
  obtain ⟨nodes, listed⟩ := listed_of_reaches reached
  refine ⟨nodes, listed.chain, listed.chain.nodup, ?_, ?_, ?_, ?_⟩
  · intro t member spec m tmp rest top
    exact (listed.linked m).mpr (pool.returned_linked member top)
  · intro t member tmp m head rest top inside
    have linked := (listed.linked m).mp inside
    rw [pool.fresh_unlinked member top] at linked
    cases linked
  · intro s' later
    obtain ⟨newer, listed'⟩ := listed.grows reached later
    exact ⟨newer, listed'.chain⟩
  · intro t l s₁ fr base thread top reads taken
    exact listed.traversal reached thread top reads taken

end lists

/-- Two threads make a node each, and the weak compare-exchange of the first one fails spuriously
once. A third thread is about to read the head of the list.
-/
def prependSchedule : List Label :=
  [.call 0 (.null 0), .call 0 (.null 0), .call 0 (.new 0 100 false), .call 0 (.store 0 1)]
    ++ List.replicate 4 (.run 0 false)
    ++ [.call 1 (.load 0)]
    ++ List.replicate 3 (.run 1 false)
    ++ [.call 2 (.load 0), .run 2 false, .run 0 true, .run 0 false]

/-- While the third thread walks, the second one fails to prepend its node and tries again. -/
def traverseSchedule : List Label :=
  [.run 1 false, .run 2 false, .run 1 false, .run 2 false]

/-- The walk comes to its end, and it has not seen the node that was prepended after it had read the
head.
-/
theorem list_only_grows_prepend
    : ∃ (s s₁ s' s'' : State) (base : List Frame) (nodes calls : List NodeId)
      (steps : List Label),
        Chain s.sh.next s.sh.head nodes ∧ nodes.Nodup ∧ 0 ∈ nodes ∧ 1 ∉ nodes
          ∧ s'.sh.head = some 1
          ∧ Within ⟨64, true⟩ (fun _ _ => True) 2 (returned base)
            (visited 2 base) s₁ calls s'
          ∧ atEnd base (s'.thr 2).stack ∧ calls = nodes
          ∧ Within ⟨64, true⟩ (fun _ _ => True) 2 (searched base) (ownSteps 2) s₁ steps s''
          ∧ steps.length ≤ 4 * nodes.length := by
  let cfg : Config := ⟨64, true⟩
  let base : List Frame := [.load 0 12 .tls .nodeWait]
  let check (s : State) (l : Label) : Bool := true && unended 2 (searched base) s l
  have sound
      : ∀ s l, check s l = true
        → (l.thread = 2 → ¬ searched base (s.thr 2).stack) ∧ True :=
    unended_sound fun _ _ _ => trivial
  have ran
      : ((runChecked (step cfg) (fun _ _ => true) (State.init 3) prependSchedule).bind fun s =>
          (step cfg s (.run 2 false)).bind fun s₁ =>
          (runNoted cfg check (visited 2 base) s₁ traverseSchedule).bind fun r =>
          (runNoted cfg check (ownSteps 2) s₁ traverseSchedule).map fun r' =>
          (s.nThr, [(s.thr 0).stack.head?, (s.thr 1).stack.head?], r.2.sh.head,
            [(s.thr 2).stack, (s₁.thr 2).stack, (r.2.thr 2).stack]))
        = some (3, [some (.ret .plain (.node 0 false)), some (.get false (.link 1 none))], some 1,
            [.get false .head :: base, .get false (.checkUse 0) :: base,
              .get false .fresh :: base]) := by
    decide +kernel
  obtain ⟨s, ran₀, ran⟩ := Option.bind_eq_some_iff.mp ran
  obtain ⟨s₁, taken, ran⟩ := Option.bind_eq_some_iff.mp ran
  obtain ⟨⟨calls, s'⟩, visits, ran⟩ := Option.bind_eq_some_iff.mp ran
  obtain ⟨⟨steps, s''⟩, moves, eq⟩ := Option.map_eq_some_iff.mp ran
  simp only [Prod.mk.injEq, List.cons.injEq, and_true] at eq
  obtain ⟨threads, ⟨made, makes⟩, head, top, top₁, last⟩ := eq
  obtain ⟨nodes, chain, nodup, inside, outside, _, walks⟩ :=
    list_only_grows (reaches_of_runChecked (fun _ _ _ => trivial) ran₀)
  obtain ⟨rest, stack₀⟩ := List.head?_eq_some_iff.mp made
  obtain ⟨rest', stack₁⟩ := List.head?_eq_some_iff.mp makes
  have walk : Traversal cfg 2 base nodes s₁ := walks 2 _ s₁ _ base rfl top rfl taken
  have run : Within cfg (fun _ _ => True) 2 (returned base) (visited 2 base) s₁ calls s' :=
    Within.extend
      (fun s l checked => (sound s l checked).imp_left fun away thread back =>
        away thread (.inl back))
      .start visits
  have search : Within cfg (fun _ _ => True) 2 (searched base) (ownSteps 2) s₁ steps s'' :=
    Within.extend sound .start moves
  have ended : atEnd base (s'.thr 2).stack := ⟨_, last, rfl⟩
  exact ⟨s, s₁, s', s'', base, nodes, calls, steps, chain, nodup,
    inside 0 (by omega) _ 0 _ rest stack₀,
    outside 1 (by omega) _ 1 _ rest' stack₁, head, run, ended,
    walk.complete calls s' run (.inl ended), search, (walk.search _ _ top₁ steps s'' search).1⟩

end ArcSwap
