import ArcSwap.Model.System

/-! What one step can do, said once. Each relation lists the atomic steps of one function
of the source with the conditions of its branches, so that an invariant is proved by cases
on the steps and no proof unfolds a step function.
-/

namespace ArcSwap

-----------------------------------------------------------------------------------------
-- debt/list.rs
-----------------------------------------------------------------------------------------

/-- The steps of `Node::get`. -/
inductive GetStep (sh : Shared) (tls : Tls) (tmp : Bool)
    : GetPc → Act → Tls → List Frame → Prop
  | head : GetStep sh tls tmp .head .nop tls [.get tmp (.at sh.head)]
  | cooling {n} (cooldown : sh.inUse n = NODE_COOLDOWN)
    : GetStep sh tls tmp (.checkUse n) .nop tls [.get tmp (.checkWriters n)]
  | notCooling {n} (other : sh.inUse n ≠ NODE_COOLDOWN)
    : GetStep sh tls tmp (.checkUse n) .nop tls [.get tmp (.claim n)]
  | quiet {n} (none : sh.activeWriters n = 0)
    : GetStep sh tls tmp (.checkWriters n) .nop tls [.get tmp (.release n (sh.epoch n))]
  | busy {n} (some : sh.activeWriters n ≠ 0)
    : GetStep sh tls tmp (.checkWriters n) .nop tls [.get tmp (.claim n)]
  | release {n period} (cooldown : sh.inUse n = NODE_COOLDOWN)
    : GetStep sh tls tmp (.release n period) (.setUse n NODE_UNUSED) tls
        [.get tmp (.claim n)]
  | notReleased {n period} (other : sh.inUse n ≠ NODE_COOLDOWN)
    : GetStep sh tls tmp (.release n period) .nop tls [.get tmp (.claim n)]
  | claim {n} (unused : sh.inUse n = NODE_UNUSED)
    : GetStep sh tls tmp (.claim n) (.setUse n NODE_USED)
        (if tmp then tls else { tls with node := some n }) [.ret .plain (.node n tmp)]
  | taken {n} (other : sh.inUse n ≠ NODE_UNUSED)
    : GetStep sh tls tmp (.claim n) .nop tls [.get tmp (.at (sh.next n))]
  | fresh : GetStep sh tls tmp .fresh .newNode tls [.get tmp (.link sh.nNodes sh.head)]
  | link {n head} (same : sh.head = head)
    : GetStep sh tls tmp (.link n head) (.link n head)
        (if tmp then tls else { tls with node := some n }) [.ret .plain (.node n tmp)]
  | retry {n head}
    : GetStep sh tls tmp (.link n head) (.setNext n head) tls [.get tmp (.link n sh.head)]

theorem stepGet_moves {sh tls spurious tmp pc}
    : GetStep sh tls tmp pc (stepGet sh tls spurious tmp pc).act
        (stepGet sh tls spurious tmp pc).tls (stepGet sh tls spurious tmp pc).frames := by
  cases pc with
  | head => exact .head
  | checkUse n =>
      by_cases h : sh.inUse n = NODE_COOLDOWN
      · simpa [stepGet, h] using GetStep.cooling h
      · simpa [stepGet, h] using GetStep.notCooling h
  | checkWriters n =>
      by_cases h : sh.activeWriters n = 0
      · simpa [stepGet, h] using GetStep.quiet h
      · simpa [stepGet, h] using GetStep.busy h
  | release n period =>
      by_cases h : sh.inUse n = NODE_COOLDOWN
      · simpa [stepGet, h] using GetStep.release h
      · simpa [stepGet, h] using GetStep.notReleased h
  | claim n =>
      by_cases h : sh.inUse n = NODE_UNUSED
      · have move : GetStep sh tls tmp _ _ _ _ := .claim h
        cases tmp <;> simpa [stepGet, claimed, h] using move
      · simpa [stepGet, h] using GetStep.taken h
  | fresh => exact .fresh
  | link n head =>
      by_cases h : sh.head = head ∧ spurious = false
      · have move : GetStep sh tls tmp (.link n head) _ _ _ := .link h.1
        cases tmp <;> simpa [stepGet, claimed, h] using move
      · simpa [stepGet, h] using GetStep.retry

/-- The steps of `Node::start_cooldown`. -/
inductive CoolStep (sh : Shared) (n : NodeId) : CoolPc → Act → List Frame → Prop
  | reserve : CoolStep sh n .reserve (.enterWriter n) [.cool n (.swap (sh.epoch n))]
  | swap {period} (used : sh.inUse n = NODE_USED)
    : CoolStep sh n (.swap period) (.cooldown n) [.cool n (.unreserve period)]
  | notUsed {period} (other : sh.inUse n ≠ NODE_USED)
    : CoolStep sh n (.swap period) (.cooldown n) [.panicked .cooldownUsed]
  | unreserve {period}
    : CoolStep sh n (.unreserve period) (.leaveWriter n) [.ret .plain .unit]

theorem stepCool_moves {sh tls n pc}
    : CoolStep sh n pc (stepCool sh tls n pc).act (stepCool sh tls n pc).frames := by
  cases pc with
  | reserve => exact .reserve
  | swap period =>
      by_cases h : sh.inUse n = NODE_USED
      · simpa [stepCool, h] using CoolStep.swap h
      · simpa [stepCool, h] using CoolStep.notUsed h
  | unreserve period => exact .unreserve

-----------------------------------------------------------------------------------------
-- Counts and guards
-----------------------------------------------------------------------------------------

/-- The steps of `T::dec`. -/
inductive DecStep (sh : Shared) (p : Ptr) : Act → List Frame → Prop
  | null (null : p.addr = 0) : DecStep sh p .nop [.ret .plain .unit]
  | last (real : p.addr ≠ 0) (one : (sh.heap p.addr).map Obj.strong = some 1)
    : DecStep sh p (.dec p.addr) [.destructor p]
  | more (real : p.addr ≠ 0) (other : (sh.heap p.addr).map Obj.strong ≠ some 1)
    : DecStep sh p (.dec p.addr) [.ret .plain .unit]

theorem stepDec_moves {sh tls p}
    : DecStep sh p (stepDec sh tls p).act (stepDec sh tls p).frames := by
  by_cases null : p.addr = 0
  · simpa [stepDec, null] using DecStep.null null
  · by_cases one : (sh.heap p.addr).map Obj.strong = some 1
    · simpa [stepDec, null, one] using DecStep.last null one
    · simpa [stepDec, null, one] using DecStep.more null one

/-- The steps of `Protected::into_inner`. -/
inductive IntoStep (sh : Shared) (g : Prot) (spec : Spec)
    : IntoPc → Act → List Frame → Prop
  | full (none : g.debt = none) : IntoStep sh g spec .inc .nop [.ret spec (.ptr g.ptr)]
  | inc {n i} (owed : g.debt = some (n, i))
    : IntoStep sh g spec .inc (incAct g.ptr) [.into g spec .pay]
  | paid {n i} (owed : g.debt = some (n, i)) (there : sh.slot n i = g.ptr.addr)
    : IntoStep sh g spec .pay (.settle n i) [.ret spec (.ptr g.ptr)]
  | wasPaid {n i} (owed : g.debt = some (n, i)) (other : sh.slot n i ≠ g.ptr.addr)
    : IntoStep sh g spec .pay .nop [.dec g.ptr, .into g spec .decWait]

theorem stepInto_moves {sh tls g spec pc e} (h : stepInto sh tls g spec pc = some e)
    : IntoStep sh g spec pc e.act e.frames ∧ e.tls = tls := by
  cases pc with
  | inc =>
      cases owed : g.debt with
      | none =>
          simp only [stepInto, owed, Option.some.injEq] at h
          subst h
          exact ⟨.full owed, rfl⟩
      | some slot =>
          simp only [stepInto, owed, Option.some.injEq] at h
          subst h
          exact ⟨.inc owed, rfl⟩
  | pay =>
      cases owed : g.debt with
      | none => simp [stepInto, owed] at h
      | some slot =>
          obtain ⟨n, i⟩ := slot
          by_cases there : sh.slot n i = g.ptr.addr
          · simp only [stepInto, owed, there, ↓reduceIte, Option.some.injEq] at h
            subst h
            exact ⟨.paid owed there, rfl⟩
          · simp only [stepInto, owed, there, ↓reduceIte, Option.some.injEq] at h
            subst h
            exact ⟨.wasPaid owed there, rfl⟩
  | decWait => cases h

/-- The steps of `Drop for HybridProtection`. -/
inductive GuardDropStep (sh : Shared) (g : Prot) : Act → List Frame → Prop
  | full (none : g.debt = none) : GuardDropStep sh g .nop [.dec g.ptr]
  | paid {n i} (owed : g.debt = some (n, i)) (there : sh.slot n i = g.ptr.addr)
    : GuardDropStep sh g (.settle n i) [.ret .plain .unit]
  | wasPaid {n i} (owed : g.debt = some (n, i)) (other : sh.slot n i ≠ g.ptr.addr)
    : GuardDropStep sh g .nop [.dec g.ptr]

theorem stepGuardDrop_moves {sh tls g}
    : GuardDropStep sh g (stepGuardDrop sh tls g).act (stepGuardDrop sh tls g).frames := by
  cases owed : g.debt with
  | none => simpa [stepGuardDrop, owed] using GuardDropStep.full owed
  | some slot =>
      obtain ⟨n, i⟩ := slot
      by_cases there : sh.slot n i = g.ptr.addr
      · simpa [stepGuardDrop, owed, there] using GuardDropStep.paid owed there
      · simpa [stepGuardDrop, owed, there] using GuardDropStep.wasPaid owed there

-----------------------------------------------------------------------------------------
-- HybridStrategy::load
-----------------------------------------------------------------------------------------

/-- The panics of a step that needs the node of its `LocalNode`. -/
inductive NoNode (cfg : Config) (sh : Shared) (tls : Tls) (loc : Loc) : Site → Prop
  | missing (none : loc.node tls = none) : NoNode cfg sh tls loc .expectNode
  | unused {n} (node : loc.node tls = some n) (debug : cfg.debug = true)
    (other : sh.inUse n ≠ NODE_USED)
    : NoNode cfg sh tls loc .nodeUsed

/-- The steps of `HybridStrategy::load`. -/
inductive LoadStep (cfg : Config) (sh : Shared) (tls : Tls) (c began : Nat)
    : Loc → LoadPc → Act → Tls → List Frame → Prop
  | enter {loc n} (alive : tls.alive = true) (owned : tls.node = some n)
    : LoadStep cfg sh tls c began loc .enter .nop tls
        [.load c began .tls (if sh.useFast c then .first else .announce)]
  | enterGet {loc} (alive : tls.alive = true) (none : tls.node = none)
    : LoadStep cfg sh tls c began loc .enter .nop tls
        [.get false .head, .load c began .tls .nodeWait]
  | enterTmp {loc} (dead : tls.alive = false)
    : LoadStep cfg sh tls c began loc .enter .nop tls
        [.get true .head, .load c began (.tmp none) .nodeWait]
  /-- The node is missing or, in debug builds, not marked as used. -/
  | noNode {loc pc site} (uses : pc = .first ∨ pc = .announce ∨ ∃ n gen p, pc = .fill n gen p)
    (bad : NoNode cfg sh tls loc site)
    : LoadStep cfg sh tls c began loc pc .nop tls
        [.panicked site, .load c began loc .unwind]
  | first {loc n} (node : loc.node tls = some n)
    : LoadStep cfg sh tls c began loc .first .nop tls
        [.load c began loc (.scan n (sh.ptr c) 0)]
  | scanFree {loc n p k} (free : sh.slot n ((k + loc.offset tls) % DEBT_SLOT_CNT) = NONE)
    : LoadStep cfg sh tls c began loc (.scan n p k) .nop tls
        [.load c began loc (.take n p ((k + loc.offset tls) % DEBT_SLOT_CNT))]
  | scanNext {loc n p k} (more : k + 1 < DEBT_SLOT_CNT)
    : LoadStep cfg sh tls c began loc (.scan n p k) .nop tls
        [.load c began loc (.scan n p (k + 1))]
  | scanFull {loc n p k}
    : LoadStep cfg sh tls c began loc (.scan n p k) .nop tls
        [.load c began loc .announce]
  | take {loc n p i} (free : cfg.debug = true → sh.slot n i = NONE)
    : LoadStep cfg sh tls c began loc (.take n p i) (.register n i p began)
        (loc.setOffset tls (i + 1)) [.load c began loc (.recheck n p i)]
  | takePanic {loc n p i} (taken : sh.slot n i ≠ NONE)
    : LoadStep cfg sh tls c began loc (.take n p i) (.register n i p began)
        (loc.setOffset tls (i + 1)) [.panicked .fastSlot, .load c began loc .unwind]
  | confirmed {loc n p i} (same : p.addr = (sh.ptr c).addr)
    : LoadStep cfg sh tls c began loc (.recheck n p i) .nop tls
        (finishLoad c began sh.time loc ⟨sh.ptr c, some (n, i), none⟩)
  | changed {loc n p i} (other : p.addr ≠ (sh.ptr c).addr)
    : LoadStep cfg sh tls c began loc (.recheck n p i) .nop tls
        [.load c began loc (.payBack n p i)]
  | paidBack {loc n p i} (there : sh.slot n i = p.addr)
    : LoadStep cfg sh tls c began loc (.payBack n p i) (.settle n i) tls
        [.load c began loc .announce]
  | alreadyPaid {loc n p i} (other : sh.slot n i ≠ p.addr)
    : LoadStep cfg sh tls c began loc (.payBack n p i) .nop tls
        (finishLoad c began sh.time loc ⟨sh.rebind p, none, none⟩)
  | announce {loc n gen} (node : loc.node tls = some n)
    (next : gen = nextGeneration cfg (loc.generation tls))
    : LoadStep cfg sh tls c began loc .announce (.announce n (sh.cellAddr c))
        (loc.setGeneration tls gen) [.load c began loc (.publish n gen)]
  | announcePanic {loc n gen} (node : loc.node tls = some n)
    (next : gen = nextGeneration cfg (loc.generation tls)) (tag : gen / 2 % 2 ≠ 0)
    : LoadStep cfg sh tls c began loc .announce (.announce n (sh.cellAddr c))
        (loc.setGeneration tls gen) [.panicked .genTag, .load c began loc .unwind]
  | publish {loc n gen} (idle : cfg.debug = true → sh.control n = IDLE) (fresh : gen ≠ 0)
    : LoadStep cfg sh tls c began loc (.publish n gen) (.publish n (gen + GEN_TAG)) tls
        [.load c began loc (.candidate n (gen + GEN_TAG))]
  | publishPanic {loc n gen} (left : sh.control n ≠ IDLE)
    : LoadStep cfg sh tls c began loc (.publish n gen) (.publish n (gen + GEN_TAG)) tls
        [.panicked .leftControl, .load c began loc .unwind]
  | publishWrapped {n}
    : LoadStep cfg sh tls c began .tls (.publish n 0) (.publish n (0 + GEN_TAG))
        { tls with node := none }
        [.cool n .reserve, .load c began .tls (.discardWait n (0 + GEN_TAG))]
  | publishWrappedTmp {n node}
    : LoadStep cfg sh tls c began (.tmp node) (.publish n 0) (.publish n (0 + GEN_TAG)) tls
        [.cool n .reserve, .load c began (.tmp none) (.discardWait n (0 + GEN_TAG))]
  | candidate {loc n gen}
    : LoadStep cfg sh tls c began loc (.candidate n gen) .nop tls
        [.load c began loc (.fill n gen (sh.ptr c))]
  | fill {loc m n gen p} (node : loc.node tls = some n)
    (free : cfg.debug = true → sh.slot n HELPING = NONE)
    : LoadStep cfg sh tls c began loc (.fill m gen p) (.register n HELPING p began) tls
        [.load c began loc (.confirm n gen p)]
  | fillPanic {loc m n gen p} (node : loc.node tls = some n)
    (taken : sh.slot n HELPING ≠ NONE)
    : LoadStep cfg sh tls c began loc (.fill m gen p) (.register n HELPING p began) tls
        [.panicked .helpingSlot, .load c began loc .unwind]
  | unhelped {loc n gen p} (same : sh.control n = gen)
    : LoadStep cfg sh tls c began loc (.confirm n gen p) (.goIdle n) tls
        [.load c began loc (.ownInc n p)]
  | helped {loc n gen p} (other : sh.control n ≠ gen)
    (tag : cfg.debug = true → tagOf (sh.control n) = REPLACEMENT_TAG)
    : LoadStep cfg sh tls c began loc (.confirm n gen p) (.goIdle n) tls
        [.load c began loc
          (.envelope n p (sh.control n - tagOf (sh.control n))
            ((sh.gift n).getD ⟨0, 0, 0⟩))]
  | helpedPanic {loc n gen p} (other : sh.control n ≠ gen)
    (tag : tagOf (sh.control n) ≠ REPLACEMENT_TAG)
    : LoadStep cfg sh tls c began loc (.confirm n gen p) (.goIdle n) tls
        [.panicked .replacementTag, .load c began loc .unwind]
  | ownInc {loc n p}
    : LoadStep cfg sh tls c began loc (.ownInc n p) (incAct p) tls
        [.load c began loc (.ownPay n p)]
  | ownPaid {loc n p} (there : sh.slot n HELPING = p.addr)
    : LoadStep cfg sh tls c began loc (.ownPay n p) (.settle n HELPING) tls
        (finishLoad c began sh.time loc ⟨p, none, none⟩)
  | ownWasPaid {loc n p} (other : sh.slot n HELPING ≠ p.addr)
    : LoadStep cfg sh tls c began loc (.ownPay n p) .nop tls
        [.dec p, .load c began loc (.decWait ⟨p, none, none⟩)]
  | envelope {loc n p e r}
    : LoadStep cfg sh tls c began loc (.envelope n p e r) .nop tls
        [.load c began loc
          (.restore n p e { sh.handover (handoverNode e) with ty := sh.cellTy c })]
  | restore {loc n p e r}
    : LoadStep cfg sh tls c began loc (.restore n p e r) (.setOffer n e) tls
        [.load c began loc (.unused n p r)]
  | unusedPaid {loc n p r} (there : sh.slot n HELPING = p.addr)
    : LoadStep cfg sh tls c began loc (.unused n p r) (.settle n HELPING) tls
        (finishLoad c began sh.time loc ⟨r, none, none⟩)
  | unusedWasPaid {loc n p r} (other : sh.slot n HELPING ≠ p.addr)
    : LoadStep cfg sh tls c began loc (.unused n p r) .nop tls
        [.dec (sh.rebind p), .load c began loc (.decWait ⟨r, none, none⟩)]

/-- A step that needs the node either panics or has it. -/
theorem withNode_cases (cfg sh tls loc unwind k)
    : (∃ site, withNode cfg sh tls loc unwind k = ⟨.nop, tls, [.panicked site, unwind]⟩
        ∧ NoNode cfg sh tls loc site)
      ∨ ∃ n, loc.node tls = some n ∧ withNode cfg sh tls loc unwind k = k n := by
  cases node : loc.node tls with
  | none => exact Or.inl ⟨.expectNode, by simp [withNode, node], .missing node⟩
  | some n =>
      by_cases bad : cfg.debug = true ∧ sh.inUse n ≠ NODE_USED
      · exact Or.inl ⟨.nodeUsed, by simp [withNode, node, bad], .unused node bad.1 bad.2⟩
      · refine Or.inr ⟨n, rfl, ?_⟩
        simp only [withNode, node, Bool.and_eq_true, bne_iff_ne, ne_eq, bad, ↓reduceIte]

theorem debugAssert_cases (cfg : Config) (holds site unwind frames)
    : (cfg.debugAssert holds site unwind frames = frames
        ∧ (cfg.debug = true → holds = true))
      ∨ (cfg.debugAssert holds site unwind frames = [.panicked site, unwind]
        ∧ holds = false) := by
  cases debug : cfg.debug <;> cases holds <;> simp [Config.debugAssert, debug]

theorem stepLoad_moves {cfg sh tls c began loc pc e}
    (h : stepLoad cfg sh tls c began loc pc = some e)
    : LoadStep cfg sh tls c began loc pc e.act e.tls e.frames := by
  cases pc with
  | enter =>
      simp only [stepLoad] at h
      split at h
      · split at h <;> cases h
        · exact .enter ‹_› ‹_›
        · exact .enterGet ‹_› ‹_›
      · cases h
        exact .enterTmp (by simpa using ‹¬tls.alive = true›)
  | nodeWait | discardWait | decWait | coolWait | unwind => cases h
  | first =>
      simp only [stepLoad, Option.some.injEq] at h
      subst h
      rcases withNode_cases cfg sh tls loc
        (.load c began loc .unwind)
        (fun n => ⟨.nop, tls, [.load c began loc (.scan n (sh.ptr c) 0)]⟩) with
        ⟨site, eq, bad⟩ | ⟨n, node, eq⟩
      · rw [eq]; exact .noNode (Or.inl rfl) bad
      · rw [eq]; exact .first node
  | scan n p k =>
      simp only [stepLoad] at h
      split at h
      · cases h; exact .scanFree ‹_›
      · split at h <;> cases h
        · exact .scanNext ‹_›
        · exact .scanFull
  | take n p i =>
      simp only [stepLoad, Option.some.injEq] at h
      subst h
      rcases debugAssert_cases cfg (sh.slot n i == NONE)
        .fastSlot (.load c began loc .unwind)
        ([.load c began loc (.recheck n p i)]) with ⟨eq, ok⟩ | ⟨eq, bad⟩
      · simp only [eq]; exact .take (by simpa using ok)
      · simp only [eq]; exact .takePanic (by simpa using bad)
  | recheck n p i =>
      simp only [stepLoad] at h
      split at h <;> cases h
      · exact .confirmed ‹_›
      · exact .changed ‹_›
  | payBack n p i =>
      simp only [stepLoad] at h
      split at h <;> cases h
      · exact .paidBack ‹_›
      · exact .alreadyPaid ‹_›
  | announce =>
      simp only [stepLoad, Option.some.injEq] at h
      subst h
      rcases withNode_cases cfg sh tls loc
        (.load c began loc .unwind)
        (fun n =>
          ⟨.announce n (sh.cellAddr c),
            loc.setGeneration tls (nextGeneration cfg (loc.generation tls)),
            cfg.debugAssert (nextGeneration cfg (loc.generation tls) / 2 % 2 == 0) .genTag
              (.load c began loc .unwind)
              [.load c began loc
                (.publish n (nextGeneration cfg (loc.generation tls)))]⟩) with
        ⟨site, eq, bad⟩ | ⟨n, node, eq⟩
      · rw [eq]; exact .noNode (Or.inr (Or.inl rfl)) bad
      · rw [eq]
        rcases debugAssert_cases cfg
          (nextGeneration cfg (loc.generation tls) / 2 % 2 == 0)
          .genTag (.load c began loc .unwind)
          ([.load c began loc
            (.publish n (nextGeneration cfg (loc.generation tls)))]) with
          ⟨eq, _⟩ | ⟨eq, bad⟩
        · simp only [eq]; exact .announce node rfl
        · simp only [eq]; exact .announcePanic node rfl (by simpa using bad)
  | publish n gen =>
      simp only [stepLoad] at h
      split at h
      · cases h
        exact .publishPanic (by simp_all)
      · rename_i idle
        split at h
        · subst gen
          cases loc <;> cases h
          · exact .publishWrapped
          · exact .publishWrappedTmp
        · cases h
          exact .publish (by simpa using idle) ‹_›
  | candidate n gen => cases h; exact .candidate
  | fill m gen p =>
      simp only [stepLoad, Option.some.injEq] at h
      subst h
      rcases withNode_cases cfg sh tls loc
        (.load c began loc .unwind)
        (fun n =>
          ⟨.register n HELPING p began, tls,
            cfg.debugAssert (sh.slot n HELPING == NONE) .helpingSlot
              (.load c began loc .unwind) [.load c began loc (.confirm n gen p)]⟩) with
        ⟨site, eq, bad⟩ | ⟨n, node, eq⟩
      · rw [eq]; exact .noNode (Or.inr (Or.inr ⟨m, gen, p, rfl⟩)) bad
      · rw [eq]
        rcases debugAssert_cases cfg (sh.slot n HELPING == NONE)
          .helpingSlot (.load c began loc .unwind)
          ([.load c began loc (.confirm n gen p)]) with ⟨eq, ok⟩ | ⟨eq, bad⟩
        · simp only [eq]; exact .fill node (by simpa using ok)
        · simp only [eq]; exact .fillPanic node (by simpa using bad)
  | confirm n gen p =>
      simp only [stepLoad] at h
      split at h <;> cases h
      · exact .unhelped ‹_›
      · rcases debugAssert_cases cfg
          (tagOf (sh.control n) == REPLACEMENT_TAG)
          .replacementTag (.load c began loc .unwind)
          ([.load c began loc
            (.envelope n p (sh.control n - tagOf (sh.control n))
              ((sh.gift n).getD ⟨0, 0, 0⟩))]) with ⟨eq, ok⟩ | ⟨eq, bad⟩
        · simp only [eq]; exact .helped ‹_› (by simpa using ok)
        · simp only [eq]; exact .helpedPanic ‹_› (by simpa using bad)
  | ownInc n p => cases h; exact .ownInc
  | ownPay n p =>
      simp only [stepLoad] at h
      split at h <;> cases h
      · exact .ownPaid ‹_›
      · exact .ownWasPaid ‹_›
  | envelope n p e r => cases h; exact .envelope
  | restore n p e r => cases h; exact .restore
  | unused n p r =>
      simp only [stepLoad] at h
      split at h <;> cases h
      · exact .unusedPaid ‹_›
      · exact .unusedWasPaid ‹_›

-----------------------------------------------------------------------------------------
-- Debt::pay_all and Slots::help
-----------------------------------------------------------------------------------------

/-- Where the loop of `Slots::help` goes with the word it has read. -/
inductive Dispatch (c : CellId) (p : Ptr) (since : Nat) (loc : Loc) (h : Helping)
    : List Frame → Prop
  | active (gen : tagOf h.control = GEN_TAG)
    : Dispatch c p since loc h [.pay c p since loc (.activeLoad h)]
  | slots (other : tagOf h.control = REPLACEMENT_TAG ∨ h.control = IDLE)
    : Dispatch c p since loc h [.pay c p since loc (.slots h.who h.period 0)]
  | invalid (gen : tagOf h.control ≠ GEN_TAG) (replaced : tagOf h.control ≠ REPLACEMENT_TAG)
    (idle : h.control ≠ IDLE)
    : Dispatch c p since loc h
        [.panicked .invalidControl, .pay c p since loc (.unwind (some (h.who, h.period)))]

theorem payAt_moves {c p since loc h}
    : Dispatch c p since loc h (payAt c p since loc h) := by
  by_cases gen : tagOf h.control = GEN_TAG
  · simpa [payAt, helpDispatch, gen] using Dispatch.active gen
  · by_cases other : tagOf h.control = REPLACEMENT_TAG ∨ h.control = IDLE
    · simpa [payAt, helpDispatch, gen, other] using Dispatch.slots other
    · have invalid := other
      rw [not_or] at invalid
      simpa [payAt, helpDispatch, gen, other] using
        Dispatch.invalid gen invalid.1 invalid.2

/-- The steps of `Debt::pay_all` with `Slots::help`. -/
inductive PayStep (cfg : Config) (sh : Shared) (tls : Tls) (c : CellId) (p : Ptr)
    (since : Nat)
    : Loc → PayPc → Act → List Frame → Prop
  | enter {loc n} (alive : tls.alive = true) (owned : tls.node = some n)
    : PayStep cfg sh tls c p since loc .enter .nop [.pay c p since .tls .inc]
  | enterGet {loc} (alive : tls.alive = true) (none : tls.node = none)
    : PayStep cfg sh tls c p since loc .enter .nop
        [.get false .head, .pay c p since .tls .nodeWait]
  | enterTmp {loc} (dead : tls.alive = false)
    : PayStep cfg sh tls c p since loc .enter .nop
        [.get true .head, .pay c p since (.tmp none) .nodeWait]
  | inc {loc}
    : PayStep cfg sh tls c p since loc .inc (incAct p) [.pay c p since loc .head]
  | head {loc}
    : PayStep cfg sh tls c p since loc .head .nop [.pay c p since loc (.at sh.head)]
  | reserve {loc n}
    : PayStep cfg sh tls c p since loc (.reserve n) (.enterWriter n)
        [.pay c p since loc (.help n (sh.epoch n))]
  /-- The node of the helper is missing or, in debug builds, not marked as used. -/
  | noNode {loc n period site} (bad : NoNode cfg sh tls loc site)
    : PayStep cfg sh tls c p since loc (.help n period) .nop
        [.panicked site, .pay c p since loc (.unwind (some (n, period)))]
  | help {loc n period self frames} (node : loc.node tls = some self)
    (dispatch : Dispatch c p since loc
      ⟨n, period, self, sh.control n, sh.time, 1, sh.time⟩ frames)
    : PayStep cfg sh tls c p since loc (.help n period) .nop frames
  | helpPanic {loc n period self} (node : loc.node tls = some self)
    (busy : sh.control self ≠ IDLE)
    : PayStep cfg sh tls c p since loc (.help n period) .nop
        [.panicked .selfIdle, .pay c p since loc (.unwind (some (n, period)))]
  | agrees {loc h} (same : sh.activeAddr h.who = sh.cellAddr c)
    : PayStep cfg sh tls c p since loc (.activeLoad h) .nop
        [.load c sh.time .tls .enter, .loadFull c sh.time,
          .pay c p since loc (.replaceWait h sh.time)]
  | differs {loc h} (other : sh.activeAddr h.who ≠ sh.cellAddr c)
    : PayStep cfg sh tls c p since loc (.activeLoad h) .nop
        [.pay c p since loc (.recheck h)]
  | helpMyself {loc h} (self : h.self = h.who)
    : PayStep cfg sh tls c p since loc (.activeLoad h) .nop
        [.panicked .helpMyself, .pay c p since loc (.unwind (some (h.who, h.period)))]
  | unchanged {loc h} (same : sh.control h.who = h.control)
    : PayStep cfg sh tls c p since loc (.recheck h) .nop
        [.pay c p since loc (.slots h.who h.period 0)]
  | again {loc h frames} (other : sh.control h.who ≠ h.control)
    (dispatch
      : Dispatch c p since loc
          { h with control := sh.control h.who, seen := sh.time, pass := h.pass + 1 }
          frames)
    : PayStep cfg sh tls c p since loc (.recheck h) .nop frames
  | theirSpace {loc h r}
    : PayStep cfg sh tls c p since loc (.theirSpace h r) .nop
        [.pay c p since loc (.mySpace h r (sh.spaceOffer h.who))]
  | mySpace {loc h r their}
    : PayStep cfg sh tls c p since loc (.mySpace h r their) .nop
        [.pay c p since loc (.fillSpace h r their (sh.spaceOffer h.self))]
  | fillSpace {loc h r their mine} (aligned : tagOf mine = 0)
    : PayStep cfg sh tls c p since loc (.fillSpace h r their mine) (.setEnvelope mine r.ptr)
        [.pay c p since loc (.offer h r their mine)]
  | envelopeTag {loc h r their mine} (tagged : tagOf mine ≠ 0)
    : PayStep cfg sh tls c p since loc (.fillSpace h r their mine) (.setEnvelope mine r.ptr)
        [.panicked .envelopeTag, .pay c p since loc (.unwind (some (h.who, h.period)))]
  | handOver {loc h r their mine} (same : sh.control h.who = h.control)
    : PayStep cfg sh tls c p since loc (.offer h r their mine)
        (.handOver h.who h.self mine ⟨c, r.ptr, r.began, r.ended, sh.time⟩)
        [.pay c p since loc (.exchange h their)]
  | lost {loc h r their mine} (other : sh.control h.who ≠ h.control)
    : PayStep cfg sh tls c p since loc (.offer h r their mine) .nop
        [.dec r.ptr,
          .pay c p since loc
            (.lostWait
              { h with control := sh.control h.who, seen := sh.time, pass := h.pass + 1 })]
  | exchange {loc h their}
    : PayStep cfg sh tls c p since loc (.exchange h their) (.setOffer h.self their)
        [.pay c p since loc (.slots h.who h.period 0)]
  | settle {loc n period j} (there : sh.slot n j = p.addr)
    : PayStep cfg sh tls c p since loc (.slots n period j) (.settle n j)
        [.pay c p since loc (.bump n period j)]
  | skip {loc n period j} (other : sh.slot n j ≠ p.addr)
    : PayStep cfg sh tls c p since loc (.slots n period j) .nop
        [.pay c p since loc (.nextSlot n period j)]
  | bump {loc n period j}
    : PayStep cfg sh tls c p since loc (.bump n period j) (incAct p)
        [.pay c p since loc (.nextSlot n period j)]
  | leave {loc n period}
    : PayStep cfg sh tls c p since loc (.leave n period) (.leaveWriter n)
        [.pay c p since loc (.at (sh.next n))]
  | dropVal {loc}
    : PayStep cfg sh tls c p since loc .dropVal .nop
        [.dec p, .pay c p since loc .decWait]
  | abandon {loc n period}
    : PayStep cfg sh tls c p since loc (.abandon n period) (.leaveWriter n)
        [.dec p, .pay c p since loc (.unwind none)]

theorem stepPay_moves {cfg sh tls c p since loc pc e}
    (h : stepPay cfg sh tls c p since loc pc = some e)
    : PayStep cfg sh tls c p since loc pc e.act e.frames ∧ e.tls = tls := by
  cases pc with
  | enter =>
      simp only [stepPay] at h
      split at h
      · split at h <;> cases h
        · exact ⟨.enter ‹_› ‹_›, rfl⟩
        · exact ⟨.enterGet ‹_› ‹_›, rfl⟩
      · cases h
        exact ⟨.enterTmp (by simpa using ‹¬tls.alive = true›), rfl⟩
  | nodeWait | replaceWait | lostWait | decWait | coolWait | unwind => cases h
  | inc => cases h; exact ⟨.inc, rfl⟩
  | head => cases h; exact ⟨.head, rfl⟩
  | reserve n => cases h; exact ⟨.reserve, rfl⟩
  | help n period =>
      simp only [stepPay, Option.some.injEq] at h
      subst h
      rcases withNode_cases cfg sh tls loc
        (.pay c p since loc (.unwind (some (n, period))))
        (fun self =>
          ⟨.nop, tls,
            cfg.debugAssert (sh.control self == IDLE) .selfIdle
              (.pay c p since loc (.unwind (some (n, period))))
              (payAt c p since loc
                ⟨n, period, self, sh.control n, sh.time, 1, sh.time⟩)⟩) with
        ⟨site, eq, bad⟩ | ⟨self, node, eq⟩
      · rw [eq]; exact ⟨.noNode bad, rfl⟩
      · rw [eq]
        rcases debugAssert_cases cfg (sh.control self == IDLE)
          .selfIdle (.pay c p since loc (.unwind (some (n, period))))
          (payAt c p since loc ⟨n, period, self, sh.control n, sh.time, 1, sh.time⟩) with
          ⟨eq, _⟩ | ⟨eq, bad⟩
        · simp only [eq]; exact ⟨.help node payAt_moves, trivial⟩
        · simp only [eq]; exact ⟨.helpPanic node (by simpa using bad), trivial⟩
  | activeLoad h' =>
      simp only [stepPay, Option.some.injEq] at h
      subst h
      rcases debugAssert_cases cfg (h'.self != h'.who)
        .helpMyself (.pay c p since loc (.unwind (some (h'.who, h'.period))))
        (if sh.activeAddr h'.who = sh.cellAddr c then
          [.load c sh.time .tls .enter, .loadFull c sh.time,
            .pay c p since loc (.replaceWait h' sh.time)]
        else [.pay c p since loc (.recheck h')]) with ⟨eq, _⟩ | ⟨eq, bad⟩
      · simp only [eq]
        split
        · exact ⟨.agrees ‹_›, trivial⟩
        · exact ⟨.differs ‹_›, trivial⟩
      · simp only [eq]; exact ⟨.helpMyself (by simpa using bad), trivial⟩
  | recheck h' =>
      simp only [stepPay] at h
      split at h <;> cases h
      · exact ⟨.unchanged ‹_›, rfl⟩
      · exact ⟨.again ‹_› payAt_moves, rfl⟩
  | theirSpace h' r => cases h; exact ⟨.theirSpace, rfl⟩
  | mySpace h' r their => cases h; exact ⟨.mySpace, rfl⟩
  | fillSpace h' r their mine =>
      simp only [stepPay, Option.some.injEq] at h
      subst h
      split
      · exact ⟨.fillSpace ‹_›, rfl⟩
      · exact ⟨.envelopeTag ‹_›, rfl⟩
  | offer h' r their mine =>
      simp only [stepPay] at h
      split at h <;> cases h
      · exact ⟨.handOver ‹_›, rfl⟩
      · exact ⟨.lost ‹_›, rfl⟩
  | exchange h' their => cases h; exact ⟨.exchange, rfl⟩
  | slots n period j =>
      simp only [stepPay] at h
      split at h <;> cases h
      · exact ⟨.settle ‹_›, rfl⟩
      · exact ⟨.skip ‹_›, rfl⟩
  | bump n period j => cases h; exact ⟨.bump, rfl⟩
  | leave n period => cases h; exact ⟨.leave, rfl⟩
  | dropVal => cases h; exact ⟨.dropVal, rfl⟩
  | abandon n period => cases h; exact ⟨.abandon, rfl⟩

end ArcSwap
