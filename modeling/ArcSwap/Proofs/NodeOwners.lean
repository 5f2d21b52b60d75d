import ArcSwap.Proofs.Overflow

/-! Who owns a debt node. Every step of the program, in any run, is one access by one thread:
only the owner of a node sends it to cooldown, nobody frees an owned node, and only the owner
writes a pointer to its slots or a generation to its control word.
-/

namespace ArcSwap

open Bags GuardedRuns

/-- Thread `t` has a `LocalNode` that refers to the node, which it has not given up by the
exchange in `start_cooldown`.
-/
def State.Owns (s : State) (t : ThreadId) (m : NodeId) : Prop :=
  .owned m ∈ holdShare.thread (s.thr t)

/-- How many `LocalNode`s refer to the node, or are about to because they have made it. -/
def State.owners (s : State) (m : NodeId) : Nat :=
  ArcSwap.owners s.holds m

/-- The access writes a pointer to a slot of the node, or a generation to its control. -/
def Act.claims (m : NodeId) : Act → Prop
  | .register n _ _ _ | .publish n _ => n = m
  | _ => False

/-- The accesses to a node that are reserved to its owner or to `check_cooldown`. -/
def Act.guarded : Act → Prop
  | .register _ _ _ _ | .publish _ _ | .cooldown _ | .setUse _ _ => True
  | _ => False

/-- The panics of the crate that would show a node without its owner. -/
def Frame.disowned : Frame → Bool
  | .panicked .cooldownUsed | .panicked .nodeUsed => true
  | _ => false

-----------------------------------------------------------------------------------------
-- One step
-----------------------------------------------------------------------------------------

section step

variable {cfg : Config} {s : State} {t : ThreadId} {δ : Change} {rest : List Frame}
  {sh : Shared} {tls : Tls} {m : NodeId}

theorem incAct_unguarded (p : Ptr) : ¬ (incAct p).guarded := by
  unfold incAct
  split <;> exact id

/-- Which functions of the source make the guarded accesses. -/
inductive GuardedStep (cfg : Config) (sh : Shared) (tls : Tls)
    : Frame → Act → List Frame → Prop
  | get {tmp pc act tls' frames} (step : GetStep sh tls tmp pc act tls' frames)
    : GuardedStep cfg sh tls (.get tmp pc) act frames
  | cool {n pc act frames} (step : CoolStep sh n pc act frames)
    : GuardedStep cfg sh tls (.cool n pc) act frames
  | load {c began loc pc act tls' frames}
    (step : LoadStep cfg sh tls c began loc pc act tls' frames)
    : GuardedStep cfg sh tls (.load c began loc pc) act frames

theorem Move.guarded (move : Move cfg s tls rest δ) (guarded : δ.act.guarded)
    : ∃ fr, δ.old = [fr] ∧ GuardedStep cfg s.sh tls fr δ.act δ.new := by
  cases move with
  | resume | deliver => cases guarded
  | call below step =>
      cases step with
      | clone | cloneArg => exact (incAct_unguarded _ guarded).elim
      | _ => cases guarded
  | frame step =>
      cases step with
      | get step => exact ⟨_, rfl, .get step⟩
      | cool step => exact ⟨_, rfl, .cool step⟩
      | load step => exact ⟨_, rfl, .load step⟩
      | dec step => cases step <;> cases guarded
      | into step =>
          cases step <;> first | exact (incAct_unguarded _ guarded).elim | cases guarded
      | guardDrop step => cases step <;> cases guarded
      | pay step =>
          cases step <;> first | exact (incAct_unguarded _ guarded).elim | cases guarded
      | _ => cases guarded

/-- A load writes to the node of its `LocalNode`. -/
theorem LoadStep.claims {c began loc pc act tls' frames}
    (step : LoadStep cfg sh tls c began loc pc act tls' frames)
    (knows : (Frame.load c began loc pc).knows tls) (claims : act.claims m)
    : loc.node tls = some m := by
  cases step with
  | take | takePanic | publish | publishPanic | publishWrapped | publishWrappedTmp =>
      cases claims
      exact knows _ rfl
  | fill node | fillPanic node =>
      cases claims
      exact node
  | ownInc =>
      unfold incAct at claims
      split at claims <;> cases claims
  | _ => cases claims

/-- Only the owner of a node writes to it. -/
theorem Move.claims (move : Move cfg s tls rest δ) (ok : Thread.Ok ⟨tls, δ.old ++ rest⟩)
    (claims : δ.act.claims m)
    : .owned m ∈ holdShare.thread ⟨tls, δ.old ++ rest⟩ := by
  have guarded : δ.act.guarded := by
    cases act : δ.act <;> rw [act] at claims <;> trivial
  obtain ⟨fr, old, step⟩ := move.guarded guarded
  have knows : fr.knows tls := ok.knows fr rest (by rw [old]; rfl)
  rw [old]
  generalize δ.act = act at step claims
  generalize δ.new = new at step
  simp only [Share.thread, holdShare, List.singleton_append, listed_cons, Multiset.mem_add]
  cases step with
  | get step => cases step <;> cases claims
  | cool step => cases step <;> cases claims
  | @load c began loc pc _ _ _ step =>
      exact (Multiset.mem_add.mp (Loc.owned (step.claims knows claims))).imp id .inl

/-- Only `start_cooldown` sends a node to cooldown. -/
theorem Move.cools (move : Move cfg s tls rest δ) (cools : δ.act = .cooldown m)
    : ∃ period, δ.old = [.cool m (.swap period)] := by
  obtain ⟨fr, old, step⟩ := move.guarded (by rw [cools]; trivial)
  generalize δ.act = act at step cools
  generalize δ.new = new at step
  cases step with
  | get step => cases step <;> cases cools
  | cool step =>
      cases step <;> cases cools
      all_goals exact ⟨_, old⟩
  | load step =>
      exfalso
      cases step <;> try cases cools
      unfold incAct at cools
      split at cools <;> cases cools

/-- `check_cooldown` frees a node that cools down, and `get` claims one that is free. -/
theorem Move.uses {v} (move : Move cfg s tls rest δ) (uses : δ.act = .setUse m v)
    : v = NODE_UNUSED ∧ s.sh.inUse m = NODE_COOLDOWN
      ∨ v = NODE_USED ∧ s.sh.inUse m = NODE_UNUSED := by
  obtain ⟨fr, old, step⟩ := move.guarded (by rw [uses]; trivial)
  generalize δ.act = act at step uses
  generalize δ.new = new at step
  cases step with
  | get step =>
      cases step with
      | release cooldown => cases uses; exact .inl ⟨rfl, cooldown⟩
      | claim unused => cases uses; exact .inr ⟨rfl, unused⟩
      | _ => cases uses
  | cool step => cases step <;> cases uses
  | load step =>
      exfalso
      cases step <;> try cases uses
      unfold incAct at uses
      split at uses <;> cases uses

section disowned

attribute [local simp] Frame.disowned

theorem finishLoad_disowned (c began now loc g)
    : (finishLoad c began now loc g).any Frame.disowned = false := by
  cases loc with
  | tls => rfl
  | tmp node => cases node <;> rfl

theorem Dispatch.disowned {c p since loc h frames} (step : Dispatch c p since loc h frames)
    : frames.any Frame.disowned = false := by
  cases step <;> rfl

/-- A step that shows a node without its owner has found a node that is not used. -/
theorem NoNode.disowned {loc site} (bad : NoNode cfg sh tls loc site)
    (shown : (Frame.panicked site).disowned = true)
    : ∃ m, loc.node tls = some m ∧ sh.inUse m ≠ NODE_USED := by
  cases bad with
  | missing => cases shown
  | unused node _ other => exact ⟨_, node, other⟩

theorem LoadStep.disowned {c began loc pc act tls' frames}
    (step : LoadStep cfg sh tls c began loc pc act tls' frames)
    (shown : frames.any Frame.disowned = true)
    : ∃ m, loc.node tls = some m ∧ sh.inUse m ≠ NODE_USED := by
  cases step with
  | noNode _ bad => exact bad.disowned (by simpa using shown)
  | confirmed | alreadyPaid | ownPaid | unusedPaid =>
      rw [finishLoad_disowned] at shown
      cases shown
  | _ => simp at shown

theorem PayStep.disowned {c p since loc pc act frames}
    (step : PayStep cfg sh tls c p since loc pc act frames)
    (shown : frames.any Frame.disowned = true)
    : ∃ m, loc.node tls = some m ∧ sh.inUse m ≠ NODE_USED := by
  cases step with
  | noNode bad => exact bad.disowned (by simpa using shown)
  | help _ dispatch | again _ dispatch =>
      rw [dispatch.disowned] at shown
      cases shown
  | _ => simp at shown

theorem FrameStep.disowned {fr act tls' frames}
    (step : FrameStep cfg sh tls fr act tls' frames)
    (shown : frames.any Frame.disowned = true)
    : ∃ m, .owned m ∈ owning tls.node + fr.holds ∧ sh.inUse m ≠ NODE_USED := by
  cases step with
  | cool step =>
      cases step with
      | notUsed other => exact ⟨_, by simp [Frame.holds, CoolPc.holds], other⟩
      | _ => simp at shown
  | load step =>
      obtain ⟨m, node, other⟩ := step.disowned shown
      exact ⟨m, Loc.owned node, other⟩
  | pay step =>
      obtain ⟨m, node, other⟩ := step.disowned shown
      have owned := Loc.owned node
      simp only [Frame.holds, Multiset.mem_add] at owned ⊢
      exact ⟨m, by tauto, other⟩
  | get step => cases step <;> simp at shown
  | dec step => cases step <;> simp at shown
  | into step => cases step <;> simp at shown
  | guardDrop step => cases step <;> simp at shown
  | _ => simp at shown

theorem ResumeStep.disowned {caller v frames} (step : ResumeStep sh caller v frames)
    : frames.any Frame.disowned = false := by
  cases step with
  | loadDec => exact finishLoad_disowned _ _ _ _ _
  | payLost dispatch => exact dispatch.disowned
  | @payDec c p since loc =>
      cases loc with
      | tls => rfl
      | tmp node => cases node <;> rfl
  | loadUnwind step | unwind step => cases step <;> rfl
  | _ => rfl

theorem CallStep.disowned (step : CallStep s tls rest δ) : δ.new.any Frame.disowned = false := by
  cases step with
  | start _ entry | startWith _ _ _ entry => cases entry <;> rfl
  | exit =>
      cases node : tls.node <;> rfl
  | _ => rfl

end disowned

end step

-----------------------------------------------------------------------------------------
-- Every run
-----------------------------------------------------------------------------------------

/-- The accesses that change `in_use`. -/
theorem Act.inUse_cases (sh : Shared) (act : Act) (m : NodeId)
    : (act.exec sh).inUse m = sh.inUse m ∨ act = .cooldown m ∨ (∃ v, act = .setUse m v)
      ∨ act = .newNode ∧ m = sh.nNodes := by
  cases act with
  | setUse n v =>
      by_cases same : m = n
      · exact .inr (.inr (.inl ⟨v, by rw [same]⟩))
      · exact .inl (by simp [exec, same])
  | cooldown n =>
      by_cases same : m = n
      · exact .inr (.inl (by rw [same]))
      · exact .inl (by simp [exec, same])
  | newNode =>
      by_cases same : m = sh.nNodes
      · exact .inr (.inr (.inr ⟨rfl, same⟩))
      · exact .inl (by simp [exec, same])
  | _ => exact .inl rfl

section runs

variable {cfg : Config} {s : State} {t : ThreadId} {δ : Change} {rest : List Frame}
  {m : NodeId}

theorem State.PoolOk.owners (ok : s.PoolOk) (m : NodeId)
    : s.owners m = if s.sh.inUse m = NODE_USED then 1 else 0 :=
  ok.pool.owner m

theorem State.Owns.mem (owns : s.Owns t m) (member : t < s.nThr) : .owned m ∈ s.holds :=
  Multiset.mem_add.mpr (.inl (mem_total.mpr ⟨t, member, owns⟩))

/-- A node has one owner. -/
theorem State.PoolOk.owner_unique (ok : s.PoolOk) {t' : ThreadId} (member : t < s.nThr)
    (member' : t' < s.nThr) (owns : s.Owns t m) (owns' : s.Owns t' m)
    : t = t' := by
  by_contra other
  obtain ⟨aside, split⟩ := total_split_two holdShare.thread s.thr member member' other
  have one := ok.owners m
  rw [State.owners, State.holds, State.shares, split, owners_add, owners_add, owners_add] at one
  have mine : 0 < ArcSwap.owners (holdShare.thread (s.thr t)) m := owners_pos_of_owned owns
  have theirs : 0 < ArcSwap.owners (holdShare.thread (s.thr t')) m := owners_pos_of_owned owns'
  split at one <;> omega

/-- What one step does to the nodes. -/
theorem State.PoolOk.step_owned (ok : s.PoolOk) (top : (s.thr t).stack = δ.old ++ rest)
    (move : Move cfg s (s.thr t).tls rest δ)
    : (δ.act.claims m → s.Owns t m)
      ∧ (s.sh.inUse m ≠ NODE_COOLDOWN → (δ.act.exec s.sh).inUse m = NODE_COOLDOWN
        → s.Owns t m ∧ ∃ period, δ.old = [.cool m (.swap period)])
      ∧ (s.sh.inUse m ≠ NODE_UNUSED → (δ.act.exec s.sh).inUse m = NODE_UNUSED
        → s.sh.inUse m = NODE_COOLDOWN ∧ s.owners m = 0) := by
  have thread : s.thr t = ⟨(s.thr t).tls, δ.old ++ rest⟩ := by rw [← top]
  have disciplined : Thread.Ok ⟨(s.thr t).tls, δ.old ++ rest⟩ := thread ▸ ok.disciplined t
  refine ⟨fun claims => ?_, fun before after => ?_, fun before after => ?_⟩
  · rw [State.Owns, thread]
    exact move.claims disciplined claims
  · rcases δ.act.inUse_cases s.sh m with same | cools | ⟨v, use⟩ | ⟨new, rfl⟩
    · exact absurd (same ▸ after) before
    · obtain ⟨period, old⟩ := move.cools cools
      refine ⟨?_, period, old⟩
      rw [State.Owns, thread, old]
      simp [Share.thread, holdShare, Frame.holds, CoolPc.holds]
    · rw [use] at after
      simp only [Act.exec, Function.update_self] at after
      rcases move.uses use with ⟨rfl, _⟩ | ⟨rfl, _⟩ <;> cases after
    · simp [new, Act.exec, NODE_USED, NODE_COOLDOWN] at after
  · have cooldown : s.sh.inUse m = NODE_COOLDOWN := by
      rcases δ.act.inUse_cases s.sh m with same | cools | ⟨v, use⟩ | ⟨new, rfl⟩
      · exact absurd (same ▸ after) before
      · simp [cools, Act.exec, NODE_UNUSED, NODE_COOLDOWN] at after
      · rcases move.uses use with ⟨_, cooldown⟩ | ⟨_, unused⟩
        · exact cooldown
        · exact absurd unused before
      · simp [new, Act.exec, NODE_USED, NODE_UNUSED] at after
    exact ⟨cooldown, by rw [ok.owners, cooldown]; rfl⟩

/-- What holds of the pool and of the panics on the stacks in every run. -/
structure State.Owned (s : State) : Prop where
  pool : s.PoolOk
  shown : ∀ t < s.nThr, (s.thr t).stack.any Frame.disowned = false

theorem Move.disowned {tls} (move : Move cfg s tls rest δ)
    (used : ∀ m, .owned m ∈ owning tls.node + listed Frame.holds δ.old
      → s.sh.inUse m = NODE_USED)
    : δ.new.any Frame.disowned = false := by
  cases move with
  | frame step =>
      by_contra shown
      obtain ⟨m, owned, other⟩ := step.disowned (by simpa using shown)
      exact other (used m (by simpa using owned))
  | resume _ step => exact step.disowned
  | deliver => rfl
  | call _ step => exact step.disowned

theorem State.Owned.after (inv : s.Owned) (member : t < s.nThr)
    (top : (s.thr t).stack = δ.old ++ rest) (move : Move cfg s (s.thr t).tls rest δ)
    : (s.after t δ rest).Owned := by
  refine ⟨inv.pool.after member top move, fun t' member' => ?_⟩
  rw [State.after_nThr] at member'
  have shown := inv.shown t' member'
  rw [State.after_thr, Function.update_apply]
  split
  · subst t'
    rw [top, List.any_append, Bool.or_eq_false_iff] at shown
    rw [List.any_append, shown.2, Bool.or_false]
    refine move.disowned fun m owned => inv.pool.pool.used (n := m) ?_
    refine State.Owns.mem (t := t) ?_ member
    rw [State.Owns, Share.thread, top]
    simp only [holdShare, listed_append, Multiset.mem_add] at owned ⊢
    tauto
  · exact shown

theorem owned_of_reaches {ok : State → Label → Prop} {n}
    (reached : Reaches (step cfg) ok (State.init n) s)
    : s.Owned := by
  refine reached.invariant ⟨.init n, fun _ _ => rfl⟩ fun s l s' _ inv _ taken => ?_
  obtain ⟨δ, rest, member, top, move, rfl⟩ := step_moves taken
  exact inv.after member top move

/-- In every run, with counter overflows and panics, a node is used exactly while one
`LocalNode` refers to it, so the checks of `in_use` hold; only `start_cooldown` of its owner
sends it to cooldown, it is not freed while it has an owner, and only its owner writes a
pointer to its slots or a generation to its control word.
-/
theorem nodes_owned_once {n} (reached : Reaches (step cfg) (fun _ _ => True) (State.init n) s)
    : (∀ m, s.owners m = if s.sh.inUse m = NODE_USED then 1 else 0)
      ∧ (∀ t < s.nThr, ∀ t' < s.nThr, ∀ m, s.Owns t m → s.Owns t' m → t = t')
      ∧ (∀ t < s.nThr, ∀ m, s.Owns t m → s.sh.inUse m = NODE_USED)
      ∧ (∀ t < s.nThr, (s.thr t).stack.any Frame.disowned = false)
      ∧ ∀ l s', step cfg s l = some s' → ∃ act, s'.sh = s.sh.after act ∧ ∀ m,
          (act.claims m → s.Owns l.thread m)
          ∧ (s.sh.inUse m ≠ NODE_COOLDOWN → s'.sh.inUse m = NODE_COOLDOWN
            → s.Owns l.thread m
              ∧ ∃ period rest,
                  (s.thr l.thread).stack = .cool m (.swap period) :: rest)
          ∧ (s.sh.inUse m ≠ NODE_UNUSED → s'.sh.inUse m = NODE_UNUSED
            → s.sh.inUse m = NODE_COOLDOWN ∧ s.owners m = 0) := by
  have inv := owned_of_reaches reached
  refine ⟨inv.pool.owners, fun t member t' member' m => inv.pool.owner_unique member member',
    fun t member m owns => inv.pool.pool.used (owns.mem member), inv.shown,
    fun l s' taken => ?_⟩
  obtain ⟨δ, rest, member, top, move, rfl⟩ := step_moves taken
  refine ⟨δ.act, rfl, fun m => ?_⟩
  obtain ⟨claims, cools, frees⟩ := inv.pool.step_owned (m := m) top move
  refine ⟨claims, fun before after => ?_, frees⟩
  obtain ⟨owns, period, old⟩ := cools before after
  exact ⟨owns, period, rest, by rw [top, old]; rfl⟩

end runs

theorem nodes_owned_once_opening
    : ∃ s : State, (s.thr 0).tls.node = some 0 ∧ s.sh.inUse 0 = NODE_USED := by
  obtain ⟨s, run, here⟩ := opening 64 true
  have owned := nodes_owned_once (run.mono fun _ _ _ => trivial)
  have owns : s.Owns 0 0 := by
    simp [State.Owns, Share.thread, holdShare, here.thread, Tls.at]
  have member : 0 < s.nThr := by simp [here.threads]
  exact ⟨s, by simp [here.thread, Tls.at], owned.2.2.1 0 member 0 owns⟩

/-- The `LocalNode` of the thread refers to the node. `new_helping` clears the field of a
`LocalNode` whose node it discards only after `start_cooldown` has returned.
-/
def Frame.refers (m : NodeId) : Frame → Prop
  | .load _ _ _ (.discardWait n _) => n = m
  | .load _ _ loc _ | .pay _ _ _ loc _ => loc.temp = some m
  | _ => False

def Thread.refers (th : Thread) (m : NodeId) : Prop :=
  th.tls.node = some m ∨ ∃ fr ∈ th.stack, fr.refers m

/-- The field of the `LocalNode` outlives the ownership: in a load whose generation counter
wraps, the `LocalNode` refers to a node that cools down.
-/
theorem discarded_node_cools
    : ∃ s : State, Reaches (step ⟨64, true⟩) (fun _ _ => True) (State.init 1) s
        ∧ (s.thr 0).refers 0 ∧ s.sh.inUse 0 = NODE_COOLDOWN := by
  obtain ⟨s, g, wraps, run, idle⟩ := overflow_due (show 3 ≤ 64 by decide) true
  obtain ⟨s₁, run₁, at₁⟩ := idle.start ⟨64, true⟩ (k := .load 0) (by
    simp [State.call, State.start, idle.live, entry]
    rfl)
  obtain ⟨s₂, period, run₂, at₂⟩ := at₁.wrap ⟨64, true⟩ .nil wraps
  refine ⟨s₂, (run.trans (run₁.trans run₂)).mono fun _ _ _ => trivial, ?_, at₂.inUse⟩
  refine .inr ⟨.load 0 s.sh.time .tls (.discardWait 0 GEN_TAG), ?_, rfl⟩
  simp [at₂.thread]

end ArcSwap
