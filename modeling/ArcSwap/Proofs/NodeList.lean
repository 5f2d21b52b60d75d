import ArcSwap.Library.Chains
import ArcSwap.Proofs.Calls
import ArcSwap.Proofs.NodePoolSteps

/-! The list of debt nodes. It only grows at the front, whatever threads do in `Node::get` at
the same time, and a traversal calls its closure for the nodes that were in the list when it
read the head.
-/

namespace ArcSwap

open GuardedRuns Chains

-----------------------------------------------------------------------------------------
-- The list
-----------------------------------------------------------------------------------------

/-- The list from `LIST_HEAD` ends and consists of these nodes, and they are the linked ones. -/
structure Shared.Listed (sh : Shared) (nodes : List NodeId) : Prop where
  chain : Chain sh.next sh.head nodes
  linked : ∀ n, n ∈ nodes ↔ sh.linked n = true

/-- The nodes that are in the list stay there, and so do their successors. -/
structure Shared.Extends (sh sh' : Shared) : Prop where
  linked : ∀ n, sh.linked n = true → sh'.linked n = true
  next : ∀ n, sh.linked n = true → sh'.next n = sh.next n

theorem Shared.Extends.chain {sh sh' : Shared} (extends' : sh.Extends sh') {head nodes}
    (chain : Chain sh.next head nodes) (linked : ∀ n ∈ nodes, sh.linked n = true)
    : Chain sh'.next head nodes :=
  chain.keep fun n inside => extends'.next n (linked n inside)

section step

variable {sh : Shared} {r old new : Holds} {act : Act}

/-- A node is written to only as long as it is not in the list. -/
theorem PoolStep.grows (step : PoolStep sh r old act new) (inv : PoolInv sh old)
    : sh.Extends (act.exec sh) := by
  have away {n m} (unlinked : sh.linked m = false) (linked : sh.linked n = true) : n ≠ m := by
    rintro rfl
    rw [unlinked] at linked
    cases linked
  cases step with
  | quiet quiet | drop quiet =>
      cases act <;> first | exact ⟨fun _ => id, fun _ _ => rfl⟩ | cases quiet
  | fresh =>
      have other {n} (linked : sh.linked n = true) : n ≠ sh.nNodes :=
        Nat.ne_of_lt (inv.list.bound linked)
      refine ⟨fun n linked => ?_, fun n linked => ?_⟩ <;> simp [Act.exec, other linked, linked]
  | link | retry =>
      have unlinked := (inv.freshNew _ (Multiset.mem_cons_self _ _)).1
      refine ⟨fun n linked => ?_, fun n linked => ?_⟩ <;>
        simp [Act.exec, away unlinked linked, linked]
  | _ => exact ⟨fun _ => id, fun _ _ => rfl⟩

/-- One step leaves the list as it is or prepends a node. -/
theorem PoolStep.listed (step : PoolStep sh r old act new) (inv : PoolInv sh old) {nodes}
    (listed : sh.Listed nodes)
    : ∃ newer, (act.exec sh).Listed (newer ++ nodes) := by
  have grows := step.grows inv
  have chain {head} (chain : Chain sh.next head nodes) : Chain (act.exec sh).next head nodes :=
    grows.chain chain fun n inside => (listed.linked n).mp inside
  have same (head : (act.exec sh).head = sh.head) (linked : (act.exec sh).linked = sh.linked)
      : ∃ newer, (act.exec sh).Listed (newer ++ nodes) :=
    ⟨[], head ▸ chain listed.chain, by rw [linked]; exact listed.linked⟩
  cases step with
  | quiet quiet | drop quiet => cases act <;> first | exact same rfl rfl | cases quiet
  | fresh =>
      refine same rfl (funext fun n => ?_)
      by_cases eq : n = sh.nNodes
      · subst eq
        have unlinked : sh.linked sh.nNodes = false := by
          by_contra linked
          exact absurd (inv.list.bound (by simpa using linked)) (Nat.lt_irrefl _)
        simp [Act.exec, unlinked]
      · simp [Act.exec, eq]
  | @link n head at_head =>
      refine ⟨[n], ?_, fun m => ?_⟩
      · refine .cons (chain ?_)
        have next : ((Act.link n head).exec sh).next n = sh.head := by simp [Act.exec, at_head]
        rw [next]
        exact listed.chain
      · by_cases eq : m = n
        · simp [Act.exec, eq]
        · simp [Act.exec, eq, listed.linked]
  | _ => exact same rfl rfl

end step

section runs

variable {cfg : Config} {ok : State → Label → Prop} {s s' : State} {n : Nat}

theorem poolOk_of_reaches (reached : Reaches (step cfg) ok (State.init n) s) : s.PoolOk := by
  refine reached.invariant (.init n) fun s l s' _ ok _ taken => ?_
  obtain ⟨δ, rest, member, top, move, rfl⟩ := step_moves taken
  exact ok.after member top move

theorem State.PoolOk.grows {l} (ok : s.PoolOk) (taken : step cfg s l = some s')
    : s.sh.Extends s'.sh := by
  obtain ⟨δ, rest, member, top, move, rfl⟩ := step_moves taken
  obtain ⟨_, step⟩ := ok.poolStep member top move
  have grows := step.grows ok.pool
  exact ⟨grows.linked, grows.next⟩

/-- In every state of a run the list is in order. -/
theorem listed_of_reaches (reached : Reaches (step cfg) ok (State.init n) s)
    : ∃ nodes, s.sh.Listed nodes := by
  have init : (State.init n).sh.Listed [] := ⟨.nil, by simp [State.init, Shared.init]⟩
  refine reached.invariant (I := fun s => ∃ nodes, s.sh.Listed nodes) ⟨[], init⟩ ?_
  intro s l s' before inv _ taken
  obtain ⟨nodes, listed⟩ := inv
  obtain ⟨δ, rest, member, top, move, rfl⟩ := step_moves taken
  have ok := poolOk_of_reaches before
  obtain ⟨_, step⟩ := ok.poolStep member top move
  obtain ⟨newer, listed⟩ := step.listed ok.pool listed
  exact ⟨newer ++ nodes, listed.chain, listed.linked⟩

/-- Later lists end with the earlier ones. -/
theorem Shared.Listed.grows (reached : Reaches (step cfg) ok (State.init n) s)
    (later : Reaches (step cfg) ok s s') {nodes} (listed : s.sh.Listed nodes)
    : ∃ newer, s'.sh.Listed (newer ++ nodes) := by
  induction later with
  | start => exact ⟨[], listed⟩
  | step before _ taken ih =>
      obtain ⟨newer, listed⟩ := ih
      obtain ⟨δ, rest, member, top, move, rfl⟩ := step_moves taken
      have ok := poolOk_of_reaches (reached.trans before)
      obtain ⟨_, step⟩ := ok.poolStep member top move
      obtain ⟨newest, listed⟩ := step.listed ok.pool listed
      rw [← List.append_assoc] at listed
      exact ⟨newest ++ newer, listed.chain, listed.linked⟩

end runs

end ArcSwap
