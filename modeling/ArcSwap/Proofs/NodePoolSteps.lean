import ArcSwap.Proofs.NodePool
import ArcSwap.Proofs.Shares
import ArcSwap.Proofs.Stacks

/-! What frames hold of the node pool. Every step of the program is a step of the pool, so
the invariants of the pool hold in every run, panics and counter overflows included.
-/

namespace ArcSwap

open Bags

/-- The node that somebody refers to, if there is one. -/
def owning : Option NodeId → Holds
  | none => 0
  | some n => {.owned n}

@[simp]
theorem owning_none : owning none = 0 := rfl

@[simp]
theorem owning_some (n : NodeId) : owning (some n) = {.owned n} := rfl

@[simp]
theorem Loc.temp_tls : Loc.tls.temp = none := rfl

@[simp]
theorem Loc.temp_tmp (node : Option NodeId) : (Loc.tmp node).temp = node := rfl

/-- The node of a `LocalNode` is owned. -/
theorem Loc.owned {tls : Tls} {loc : Loc} {n : NodeId} (node : loc.node tls = some n)
    : .owned n ∈ owning tls.node + owning loc.temp := by
  cases loc with
  | tls =>
      have node : tls.node = some n := node
      simp [node]
  | tmp m =>
      have node : m = some n := node
      simp [node]

def GetPc.holds : GetPc → Holds
  | .head | .fresh => 0
  | .checkUse n | .checkWriters n | .claim n => {.looks n}
  | .release n period => .releases n period ::ₘ {.looks n}
  | .link n _ => {.fresh n}

def CoolPc.holds (n : NodeId) : CoolPc → Holds
  | .reserve => {.owned n}
  | .swap period => .writes n period ::ₘ {.owned n}
  | .unreserve period => {.writes n period}

/-- The writer is at a node and has a reservation of it. -/
def walking (n : NodeId) (period : Nat) : Holds :=
  .writes n period ::ₘ {.looks n}

def PayPc.holds : PayPc → Holds
  | .enter | .nodeWait | .inc | .head | .dropVal | .decWait | .coolWait | .unwind none => 0
  | .reserve n => {.looks n}
  | .help n period | .slots n period _ | .bump n period _ | .leave n period =>
      walking n period
  | .activeLoad h | .recheck h | .replaceWait h _ | .theirSpace h _ | .mySpace h _ _
  | .fillSpace h _ _ _ | .offer h _ _ _ | .exchange h _ | .lostWait h =>
      walking h.who h.period
  | .unwind (some (n, period)) | .abandon n period => {.writes n period}

def Ret.holds : Ret → Holds
  | .node n true => {.owned n}
  | _ => 0

/-- What a frame holds of the pool. The node of a thread-local `LocalNode` is not counted
for the frames that use it.
-/
def Frame.holds : Frame → Holds
  | .ret _ v => v.holds
  | .get _ pc => pc.holds
  | .cool n pc => pc.holds n
  | .load _ _ loc _ => owning loc.temp
  | .pay _ _ _ loc pc => pc.holds + owning loc.temp
  | _ => 0

def holdShare : Share Holds where
  frame := Frame.holds
  tls := fun tls => owning tls.node
  val := fun _ => 0

/-- A step of the pool with more holds aside. -/
theorem PoolStep.aside {sh r old act new} (step : PoolStep sh r old act new) (more : Holds)
    : PoolStep sh (r + more) (old + more) act (new + more) := by
  cases step <;> try simp only [Multiset.cons_add, add_assoc]
  case quiet quiet => exact .quiet quiet
  case head => exact .head
  case next => exact .next
  case drop quiet => exact .drop quiet
  case checked none => exact .checked none
  case release cooldown => exact .release cooldown
  case notReleased => exact .notReleased
  case claim unused => exact .claim unused
  case fresh => exact .fresh
  case link same => exact .link same
  case retry => exact .retry
  case reserve present => exact .reserve present
  case leave => exact .leave
  case leaveOn => exact .leaveOn
  case cooldown => exact .cooldown

/-- The holds of a step whose threads keep their `LocalNode`s, without what is aside. -/
def PoolMove (sh : Shared) (old : Holds) (act : Act) (new : Holds) : Prop :=
  ∃ r, PoolStep sh r old act new

theorem PoolMove.quiet {sh H} {a : Act} (quiet : a.poolQuiet) : PoolMove sh H a H :=
  ⟨H, .quiet quiet⟩

/-- Holds that are equal up to their order are kept by a quiet access. -/
theorem PoolMove.same {sh H K} {a : Act} (quiet : a.poolQuiet) (eq : K = H)
    : PoolMove sh H a K :=
  eq ▸ .quiet quiet

theorem incAct_poolQuiet (p : Ptr) : (incAct p).poolQuiet := by
  unfold incAct
  split <;> trivial

theorem PoolMove.aside {sh old act new} (move : PoolMove sh old act new) (more : Holds)
    : PoolMove sh (old + more) act (new + more) :=
  have ⟨r, step⟩ := move
  ⟨r + more, step.aside more⟩

theorem GetPc.holds_at (o : Option NodeId) : (GetPc.at o).holds = atNode o := by
  cases o <;> rfl

theorem GetStep.pool {sh tls tmp pc act tls' frames rest}
    (step : GetStep sh tls tmp pc act tls' frames)
    (ok : Thread.Ok ⟨tls, .get tmp pc :: rest⟩)
    : PoolMove sh (pc.holds + owning tls.node) act
        (listed Frame.holds frames + owning tls'.node) := by
  have knows := ok.knows _ _ rfl
  have got (n : NodeId)
      : listed Frame.holds [.ret .plain (.node n tmp)]
          + owning (if tmp then tls else { tls with node := some n }).node
        = .owned n ::ₘ owning tls.node := by
    cases tmp
    · have knows : tls.node = none := knows
      simp [Frame.holds, Ret.holds, owning, knows]
    · simp [Frame.holds, Ret.holds]
  have at_ (o : Option NodeId) : listed Frame.holds [.get tmp (.at o)] = atNode o := by
    simp [Frame.holds, GetPc.holds_at]
  have keeps {pc'} (same : pc'.holds = pc.holds)
      : PoolMove sh (pc.holds + owning tls.node) .nop
          (listed Frame.holds [.get tmp pc'] + owning tls.node) := by
    exact .same trivial (by simp [Frame.holds, same])
  cases step with
  | cooling | notCooling | busy => exact keeps rfl
  | head => rw [at_]; exact ⟨_, by simpa [GetPc.holds] using PoolStep.head⟩
  | quiet none =>
      exact ⟨_, by simpa [Frame.holds, GetPc.holds] using PoolStep.checked none⟩
  | @release n period cooldown =>
      exact ⟨.looks n ::ₘ owning tls.node,
        by simpa [Frame.holds, GetPc.holds] using PoolStep.release cooldown⟩
  | @notReleased n period =>
      exact ⟨.looks n ::ₘ owning tls.node,
        by simpa [Frame.holds, GetPc.holds] using PoolStep.notReleased⟩
  | claim unused => rw [got]; exact ⟨_, by simpa [GetPc.holds] using PoolStep.claim unused⟩
  | taken => rw [at_]; exact ⟨_, by simpa [GetPc.holds] using PoolStep.next⟩
  | fresh => exact ⟨_, by simpa [Frame.holds, GetPc.holds] using PoolStep.fresh⟩
  | link same => rw [got]; exact ⟨_, by simpa [GetPc.holds] using PoolStep.link same⟩
  | retry => exact ⟨_, by simpa [Frame.holds, GetPc.holds] using PoolStep.retry⟩

theorem CoolStep.pool {sh n pc act frames} (step : CoolStep sh n pc act frames)
    (used : .owned n ∈ pc.holds n → sh.inUse n = NODE_USED)
    : PoolMove sh (pc.holds n) act (listed Frame.holds frames) := by
  cases step with
  | reserve =>
      exact ⟨0, by
        simpa [Frame.holds, CoolPc.holds] using
          PoolStep.reserve (r := 0) (h := .owned n) (Or.inr rfl)⟩
  | @swap period =>
      have order : (CoolPc.swap period).holds n = .owned n ::ₘ {.writes n period} :=
        Multiset.pair_comm _ _
      rw [order]
      exact ⟨_, by simpa [Frame.holds, CoolPc.holds] using PoolStep.cooldown⟩
  | notUsed other => exact absurd (used (by simp [CoolPc.holds])) other
  | unreserve =>
      exact ⟨_, by simpa [Frame.holds, CoolPc.holds, Ret.holds] using PoolStep.leave (r := 0)⟩

/-- Frames that hold nothing of the pool. -/
theorem DecStep.pool {sh p act frames} (step : DecStep sh p act frames)
    : act.poolQuiet ∧ listed Frame.holds frames = 0 := by
  cases step <;> exact ⟨trivial, rfl⟩

theorem IntoStep.pool {sh g spec pc act frames} (step : IntoStep sh g spec pc act frames)
    : act.poolQuiet ∧ listed Frame.holds frames = 0 := by
  cases step with
  | inc => exact ⟨incAct_poolQuiet _, rfl⟩
  | full | paid | wasPaid => exact ⟨trivial, rfl⟩

theorem GuardDropStep.pool {sh g act frames} (step : GuardDropStep sh g act frames)
    : act.poolQuiet ∧ listed Frame.holds frames = 0 := by
  cases step <;> exact ⟨trivial, rfl⟩

theorem finishLoad_holds (c began now loc g)
    : listed Frame.holds (finishLoad c began now loc g) = owning loc.temp := by
  cases loc with
  | tls => rfl
  | tmp node => cases node <;> rfl

theorem Loc.setOffset_node (loc : Loc) (tls : Tls) (v : Nat)
    : (loc.setOffset tls v).node = tls.node := by
  cases loc <;> rfl

theorem Loc.setGeneration_node (loc : Loc) (tls : Tls) (v : Nat)
    : (loc.setGeneration tls v).node = tls.node := by
  cases loc <;> rfl

theorem LoadStep.pool {cfg sh tls c began loc pc act tls' frames rest}
    (step : LoadStep cfg sh tls c began loc pc act tls' frames)
    (ok : Thread.Ok ⟨tls, .load c began loc pc :: rest⟩)
    : PoolMove sh (owning loc.temp + owning tls.node) act
        (listed Frame.holds frames + owning tls'.node) := by
  have knows := ok.knows _ _ rfl
  have settled := ok.settled _ (.head _)
  cases step with
  | enter | enterGet | enterTmp =>
      have bare : loc.temp = none := settled trivial
      exact .same trivial (by simp [Frame.holds, GetPc.holds, bare])
  | take | takePanic =>
      exact .same trivial (by simp [Frame.holds, Loc.setOffset_node])
  | announce | announcePanic =>
      exact .same trivial (by simp [Frame.holds, Loc.setGeneration_node])
  | confirmed | alreadyPaid | ownPaid | unusedPaid =>
      exact .same trivial (by rw [finishLoad_holds])
  | publishWrapped =>
      have node : tls.node = some _ := knows _ rfl
      exact .same trivial (by simp [Frame.holds, CoolPc.holds, node])
  | publishWrappedTmp =>
      have node := knows _ rfl
      simp only [Loc.node] at node
      exact .same trivial (by simp [Frame.holds, CoolPc.holds, node])
  | ownInc => exact .same (incAct_poolQuiet _) (by simp [Frame.holds])
  | _ => exact .same trivial (by simp [Frame.holds])

theorem PayPc.holds_at (o : Option NodeId) : (PayPc.at o).holds = atNode o := by
  cases o <;> rfl

theorem PayPc.holds_nextSlot (n : NodeId) (period j : Nat)
    : (PayPc.nextSlot n period j).holds = walking n period := by
  unfold PayPc.nextSlot
  split <;> rfl

section pay

variable {sh : Shared} {tls : Tls} {c : CellId} {p : Ptr} {since : Nat} {loc : Loc}

/-- A walk goes on with the same holds. -/
theorem PoolMove.pay {a : Act} {pc pc' : PayPc} (quiet : a.poolQuiet)
    (same : pc'.holds = pc.holds)
    : PoolMove sh (pc.holds + owning loc.temp) a
        (listed Frame.holds [.pay c p since loc pc']) :=
  .same quiet (by simp [Frame.holds, same])

/-- A walk panics at a node. -/
theorem PoolMove.payPanic {a : Act} {pc : PayPc} {site n period} (quiet : a.poolQuiet)
    (at_ : pc.holds = walking n period)
    : PoolMove sh (pc.holds + owning loc.temp) a
        (listed Frame.holds [.panicked site, .pay c p since loc (.unwind (some (n, period)))]) := by
  have order : walking n period = .looks n ::ₘ {.writes n period} := Multiset.pair_comm _ _
  refine ⟨.writes n period ::ₘ owning loc.temp, ?_⟩
  rw [at_, order]
  simpa [Frame.holds, PayPc.holds] using PoolStep.drop quiet

theorem Dispatch.pool {h frames} (pc : PayPc) (step : Dispatch c p since loc h frames)
    (at_ : pc.holds = walking h.who h.period)
    : PoolMove sh (pc.holds + owning loc.temp) .nop (listed Frame.holds frames) := by
  cases step with
  | active | slots => exact .pay trivial at_.symm
  | invalid => exact .payPanic trivial at_

theorem PayStep.pool {cfg pc act frames rest}
    (step : PayStep cfg sh tls c p since loc pc act frames)
    (ok : Thread.Ok ⟨tls, .pay c p since loc pc :: rest⟩)
    : PoolMove sh (pc.holds + owning loc.temp) act (listed Frame.holds frames) := by
  have settled := ok.settled _ (.head _)
  have at_ (o : Option NodeId)
      : listed Frame.holds [.pay c p since loc (.at o)] = atNode o + owning loc.temp := by
    simp [Frame.holds, PayPc.holds_at]
  cases step with
  | enter | enterGet | enterTmp =>
      have bare : loc.temp = none := settled trivial
      exact .same trivial (by simp [Frame.holds, PayPc.holds, GetPc.holds, bare])
  | inc => exact .pay (incAct_poolQuiet _) rfl
  | head =>
      rw [at_]
      exact ⟨owning loc.temp, by simpa [PayPc.holds] using PoolStep.head⟩
  | @reserve n =>
      exact ⟨owning loc.temp, by
        simpa [Frame.holds, PayPc.holds, walking] using
          PoolStep.reserve (h := .looks n) (Or.inl rfl)⟩
  | noNode | helpPanic | helpMyself | envelopeTag => exact .payPanic trivial rfl
  | help _ dispatch | again _ dispatch => exact dispatch.pool _ rfl
  | agrees =>
      exact .same trivial (by simp [Frame.holds, PayPc.holds])
  | lost =>
      exact .same trivial (by simp [Frame.holds, PayPc.holds])
  | dropVal => exact .same trivial (by simp [Frame.holds, PayPc.holds])
  | skip => exact .pay trivial (PayPc.holds_nextSlot _ _ _)
  | bump => exact .pay (incAct_poolQuiet _) (PayPc.holds_nextSlot _ _ _)
  | leave =>
      rw [at_]
      exact ⟨owning loc.temp, by simpa [PayPc.holds, walking] using PoolStep.leaveOn⟩
  | abandon =>
      exact ⟨owning loc.temp, by simpa [Frame.holds, PayPc.holds] using PoolStep.leave⟩
  | differs | unchanged | theirSpace | mySpace | fillSpace | handOver | exchange | settle =>
      exact .pay trivial rfl

end pay

theorem FrameStep.pool {cfg sh tls fr act tls' frames rest}
    (step : FrameStep cfg sh tls fr act tls' frames)
    (ok : Thread.Ok ⟨tls, fr :: rest⟩)
    (used : ∀ n, .owned n ∈ fr.holds → sh.inUse n = NODE_USED)
    : PoolMove sh (fr.holds + owning tls.node) act
        (listed Frame.holds frames + owning tls'.node) := by
  cases step with
  | get step => exact step.pool ok
  | cool step => exact (step.pool (used _)).aside _
  | dec step => exact .same step.pool.1 (by simp [step.pool.2, Frame.holds])
  | into step => exact .same step.pool.1 (by simp [step.pool.2, Frame.holds])
  | guardDrop step => exact .same step.pool.1 (by simp [step.pool.2, Frame.holds])
  | load step => exact step.pool ok
  | pay step => exact (step.pool ok).aside _
  | panicked | swap | casExchange | casRetry | cacheHit | cacheMiss | dropFree | intoFree =>
      exact .same trivial (by simp [Frame.holds, Ret.holds, PayPc.holds])

theorem UnwindStep.pool {sh caller frames} (step : UnwindStep sh caller frames)
    : PoolMove sh caller.holds .nop (listed Frame.holds frames) := by
  cases step with
  | @payHelp c p since loc h =>
      refine ⟨.writes h.who h.period ::ₘ owning loc.temp, ?_⟩
      have order : walking h.who h.period = .looks h.who ::ₘ {.writes h.who h.period} :=
        Multiset.pair_comm _ _
      have quiet : Act.nop.poolQuiet := trivial
      simpa [Frame.holds, PayPc.holds, order] using PoolStep.drop quiet
  | load bare =>
      rename_i loc
      refine .same trivial ?_
      cases loc with
      | tls => rfl
      | tmp node =>
          cases node with
          | none => rfl
          | some n => exact absurd rfl (bare n)
  | _ => exact .same trivial (by simp [Frame.holds, Ret.holds, PayPc.holds, CoolPc.holds])

theorem ResumeStep.pool {sh tls spec caller v frames rest}
    (step : ResumeStep sh caller v frames)
    (ok : Thread.Ok ⟨tls, .ret spec v :: caller :: rest⟩)
    : PoolMove sh (v.holds + caller.holds) .nop (listed Frame.holds frames) := by
  have settled := ok.settled caller (.tail _ (.head _))
  cases step with
  | @loadNode c began loc n tmp =>
      have bare : loc.temp = none := settled trivial
      exact .same trivial (by cases tmp <;> simp [Frame.holds, Ret.holds, bare])
  | @payNode c p since loc n tmp =>
      have bare : loc.temp = none := settled trivial
      exact .same trivial (by cases tmp <;> simp [Frame.holds, Ret.holds, PayPc.holds, bare])
  | @loadCool c began loc g =>
      have bare : loc.temp = none := settled trivial
      exact .same trivial (by simp [Frame.holds, Ret.holds, bare])
  | @payCool c p since loc =>
      have bare : loc.temp = none := settled trivial
      exact .same trivial (by simp [Frame.holds, Ret.holds, PayPc.holds, bare])
  | loadDec =>
      exact .same trivial (by rw [finishLoad_holds]; simp [Frame.holds, Ret.holds])
  | payLost dispatch =>
      simpa [Frame.holds, Ret.holds] using dispatch.pool (.lostWait _) rfl
  | payDec =>
      rename_i loc
      refine .same trivial ?_
      cases loc with
      | tls => rfl
      | tmp node => cases node <;> rfl
  | loadUnwind step => simpa [Ret.holds] using step.pool
  | payUnwind bare =>
      rename_i loc
      refine .same trivial ?_
      cases loc with
      | tls => rfl
      | tmp node =>
          cases node with
          | none => rfl
          | some n => exact absurd rfl (bare n)
  | unwind step => simpa [Ret.holds] using step.pool
  | _ => exact .same trivial (by simp [Frame.holds, Ret.holds, PayPc.holds, CoolPc.holds])

theorem Entry.holds {sh c p frames} (entry : Entry sh c p frames)
    : listed Frame.holds frames = 0 := by
  cases entry <;> rfl

theorem CallStep.pool {s tls rest δ} (step : CallStep s tls rest δ)
    : PoolMove s.sh (listed Frame.holds δ.old + owning tls.node) δ.act
        (listed Frame.holds δ.new + owning δ.tls.node) := by
  cases step with
  | clone | cloneArg => exact .same (incAct_poolQuiet _) rfl
  | start _ entry => exact .same trivial (by simp [entry.holds])
  | startWith _ _ _ entry => exact .same trivial (by simp [entry.holds])
  | exit =>
      refine .same trivial ?_
      cases tls.node <;> simp [Frame.holds, CoolPc.holds]
  | _ => exact .same trivial (by simp [Frame.holds, Ret.holds, PayPc.holds])

/-- Every step of the program is a step of the pool. -/
theorem Move.pool {cfg s tls rest δ} (move : Move cfg s tls rest δ)
    (ok : Thread.Ok ⟨tls, δ.old ++ rest⟩)
    (used : ∀ fr ∈ δ.old, ∀ n, .owned n ∈ fr.holds → s.sh.inUse n = NODE_USED)
    : PoolMove s.sh (listed Frame.holds δ.old + owning tls.node) δ.act
        (listed Frame.holds δ.new + owning δ.tls.node) := by
  cases move with
  | frame step => simpa using step.pool ok (used _ (by simp))
  | resume _ step => simpa [Frame.holds, add_assoc] using (step.pool ok).aside (owning tls.node)
  | @deliver spec v below =>
      have none : v.holds = 0 := by
        have fine := ok.linked.1.toUser below
        cases v <;> first | rfl | cases fine
      exact .same trivial (by simp [Frame.holds, none])
  | call _ step => exact step.pool

-----------------------------------------------------------------------------------------
-- The pool in every run
-----------------------------------------------------------------------------------------

/-- All holds of a state. -/
def State.holds (s : State) : Holds :=
  s.shares holdShare

/-- The invariants of the pool, and the call discipline they rest on. -/
structure State.PoolOk (s : State) : Prop where
  disciplined : s.Disciplined
  pooled : s.Pooled
  pool : PoolInv s.sh s.holds

theorem State.PoolOk.init (n : Nat) : (State.init n).PoolOk where
  disciplined := .init n
  pooled _ _ := rfl
  pool := by
    have none : (State.init n).holds = 0 := by
      simp [State.holds, State.shares, total, State.init, Thread.init, Share.thread, holdShare,
        Share.entry]
    rw [none]
    constructor <;> simp [State.init, Shared.init, owners, writers, NODE_UNUSED, NODE_USED]
    constructor <;> simp

/-- Every step of the program is a step of the pool. -/
theorem State.PoolOk.poolStep {cfg} {s : State} {t δ rest} (ok : s.PoolOk) (member : t < s.nThr)
    (top : (s.thr t).stack = δ.old ++ rest) (move : Move cfg s (s.thr t).tls rest δ)
    : ∃ r, PoolStep s.sh r s.holds δ.act (s.after t δ rest).holds := by
  obtain ⟨before, after⟩ :=
    s.shares_after holdShare (fun _ none => congrArg owning none) ok.pooled member top move
  generalize (s.aside t δ rest).shares holdShare = kept at before after
  have none (u : Option UserVal) : holdShare.entry u = 0 := by cases u <;> rfl
  have used : ∀ fr ∈ δ.old, ∀ n, .owned n ∈ fr.holds → s.sh.inUse n = NODE_USED := by
    intro fr inside n held
    refine ok.pool.used (s.mem_shares_of_frame member ?_ held)
    rw [top]
    exact List.mem_append_left _ inside
  have disciplined := ok.disciplined t
  obtain ⟨r, step⟩ := move.pool (by rw [← top]; exact disciplined) used
  refine ⟨r + kept, ?_⟩
  rw [State.holds, State.holds, before, after, Share.lost, Share.gained, none, none, add_zero,
    add_zero, add_comm (holdShare.tls _), add_comm (holdShare.tls δ.tls)]
  exact step.aside kept

theorem State.PoolOk.after {cfg} {s : State} {t δ rest} (ok : s.PoolOk) (member : t < s.nThr)
    (top : (s.thr t).stack = δ.old ++ rest) (move : Move cfg s (s.thr t).tls rest δ)
    : (s.after t δ rest).PoolOk := by
  obtain ⟨_, step⟩ := ok.poolStep member top move
  exact ⟨ok.disciplined.after top move, ok.pooled.after, (step.inv ok.pool).tick⟩

end ArcSwap
