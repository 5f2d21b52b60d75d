import ArcSwap.Model.Frames
import Mathlib.Algebra.Group.Nat.Defs

/-! One atomic step of a thread, one definition for each function of the source. A step
reads the shared memory, performs one access, and replaces the top activation record.
-/

namespace ArcSwap

/-- Build parameters: the width of `usize` and whether `debug_assert!` is compiled in. -/
structure Config where
  width : Nat
  debug : Bool
deriving DecidableEq

/-- What one step does: the access, the new thread-local node, and the frames that replace
the top frame.
-/
structure Effect where
  act : Act
  tls : Tls
  frames : List Frame

/-- `debug_assert!`; `unwind` is the frame that a panic unwinds through. -/
def Config.debugAssert (cfg : Config) (holds : Bool) (site : Site) (unwind : Frame)
    (frames : List Frame)
    : List Frame :=
  if cfg.debug && !holds then [.panicked site, unwind] else frames

-----------------------------------------------------------------------------------------
-- debt/list.rs
-----------------------------------------------------------------------------------------

/-- The end of `Node::get`: the node becomes the one of the `LocalNode` it was taken for. -/
def claimed (tls : Tls) (tmp : Bool) (n : NodeId) (act : Act) : Effect :=
  if tmp then ⟨act, tls, [.ret .plain (.node n true)]⟩
  else ⟨act, { tls with node := some n }, [.ret .plain (.node n false)]⟩

/-- The next node of `Node::traverse` inside `Node::get`. -/
def GetPc.at : Option NodeId → GetPc
  | none => .fresh
  | some n => .checkUse n

/-- `Node::get` with `check_cooldown`. -/
def stepGet (sh : Shared) (tls : Tls) (spurious tmp : Bool) : GetPc → Effect
  | .head => ⟨.nop, tls, [.get tmp (.at sh.head)]⟩
  | .checkUse n =>
      ⟨.nop, tls, [.get tmp (if sh.inUse n = NODE_COOLDOWN then .checkWriters n else .claim n)]⟩
  | .checkWriters n =>
      ⟨.nop, tls,
        [.get tmp (if sh.activeWriters n = 0 then .release n (sh.epoch n) else .claim n)]⟩
  | .release n _ =>
      ⟨if sh.inUse n = NODE_COOLDOWN then .setUse n NODE_UNUSED else .nop, tls,
        [.get tmp (.claim n)]⟩
  | .claim n =>
      if sh.inUse n = NODE_UNUSED then claimed tls tmp n (.setUse n NODE_USED)
      else ⟨.nop, tls, [.get tmp (.at (sh.next n))]⟩
  | .fresh => ⟨.newNode, tls, [.get tmp (.link sh.nNodes sh.head)]⟩
  | .link n head =>
      if sh.head = head ∧ spurious = false then claimed tls tmp n (.link n head)
      else ⟨.setNext n head, tls, [.get tmp (.link n sh.head)]⟩

/-- `Node::start_cooldown`. -/
def stepCool (sh : Shared) (tls : Tls) (n : NodeId) : CoolPc → Effect
  | .reserve => ⟨.enterWriter n, tls, [.cool n (.swap (sh.epoch n))]⟩
  | .swap period =>
      ⟨.cooldown n, tls,
        if sh.inUse n = NODE_USED then [.cool n (.unreserve period)]
        else [.panicked .cooldownUsed]⟩
  | .unreserve _ => ⟨.leaveWriter n, tls, [.ret .plain .unit]⟩

-----------------------------------------------------------------------------------------
-- ref_cnt.rs and the two ends of a protection in strategy/hybrid.rs
-----------------------------------------------------------------------------------------

/-- History variable: the pointer, made for the object that is at its address now. -/
def Shared.rebind (sh : Shared) (p : Ptr) : Ptr :=
  { p with prov := ((sh.heap p.addr).map Obj.id).getD 0 }

/-- `T::inc`. Nothing is counted for null. -/
def incAct (p : Ptr) : Act :=
  if p.addr = 0 then .nop else .inc p.addr

/-- `T::dec`. The destructor runs when the count reaches 0. -/
def stepDec (sh : Shared) (tls : Tls) (p : Ptr) : Effect :=
  if p.addr = 0 then ⟨.nop, tls, [.ret .plain .unit]⟩
  else
    ⟨.dec p.addr, tls,
      if (sh.heap p.addr).map Obj.strong = some 1 then [.destructor p]
      else [.ret .plain .unit]⟩

/-- `Protected::into_inner`. -/
def stepInto (sh : Shared) (tls : Tls) (g : Prot) (spec : Spec) : IntoPc → Option Effect
  | .inc =>
      match g.debt with
      | none => some ⟨.nop, tls, [.ret spec (.ptr g.ptr)]⟩
      | some _ => some ⟨incAct g.ptr, tls, [.into g spec .pay]⟩
  | .pay =>
      match g.debt with
      | none => none
      | some (n, i) =>
          if sh.slot n i = g.ptr.addr then some ⟨.settle n i, tls, [.ret spec (.ptr g.ptr)]⟩
          else some ⟨.nop, tls, [.dec g.ptr, .into g spec .decWait]⟩
  | .decWait => none

/-- `Drop for HybridProtection`. -/
def stepGuardDrop (sh : Shared) (tls : Tls) (g : Prot) : Effect :=
  match g.debt with
  | none => ⟨.nop, tls, [.dec g.ptr]⟩
  | some (n, i) =>
      if sh.slot n i = g.ptr.addr then ⟨.settle n i, tls, [.ret .plain .unit]⟩
      else ⟨.nop, tls, [.dec g.ptr]⟩

-----------------------------------------------------------------------------------------
-- HybridStrategy::load
-----------------------------------------------------------------------------------------

/-- The load has its result: a temporary node is sent to cooldown first. -/
def finishLoad (c began now : Nat) (loc : Loc) (g : Prot) : List Frame :=
  let g := { g with src := some ⟨c, began, now⟩ }
  match loc with
  | .tmp (some n) => [.cool n .reserve, .load c began (.tmp none) (.coolWait g)]
  | _ => [.ret (.load c began) (.prot g)]

/-- Run a step on the node of the `LocalNode`, which the source expects to be set. -/
def withNode (cfg : Config) (sh : Shared) (tls : Tls) (loc : Loc) (unwind : Frame)
    (k : NodeId → Effect)
    : Effect :=
  match loc.node tls with
  | none => ⟨.nop, tls, [.panicked .expectNode, unwind]⟩
  | some n =>
      if cfg.debug && sh.inUse n != NODE_USED then
        ⟨.nop, tls, [.panicked .nodeUsed, unwind]⟩
      else k n

/-- The word that `helping::Slots::get_debt` makes of the counter. -/
def nextGeneration (cfg : Config) (generation : Nat) : Nat :=
  (generation + 4) % 2 ^ cfg.width

/-- `HybridStrategy::load`: `LocalNode::with`, `attempt` and `fallback`. -/
def stepLoad (cfg : Config) (sh : Shared) (tls : Tls) (c began : Nat) (loc : Loc)
    : LoadPc → Option Effect
  | .enter =>
      if tls.alive then
        match tls.node with
        | some _ =>
            some ⟨.nop, tls,
              [.load c began .tls (if sh.useFast c then .first else .announce)]⟩
        | none => some ⟨.nop, tls, [.get false .head, .load c began .tls .nodeWait]⟩
      else some ⟨.nop, tls, [.get true .head, .load c began (.tmp none) .nodeWait]⟩
  | .nodeWait => none
  | .first =>
      some <| withNode cfg sh tls loc (.load c began loc .unwind) fun n =>
        ⟨.nop, tls, [.load c began loc (.scan n (sh.ptr c) 0)]⟩
  | .scan n p k =>
      let i := (k + loc.offset tls) % DEBT_SLOT_CNT
      if sh.slot n i = NONE then some ⟨.nop, tls, [.load c began loc (.take n p i)]⟩
      else if k + 1 < DEBT_SLOT_CNT then
        some ⟨.nop, tls, [.load c began loc (.scan n p (k + 1))]⟩
      else some ⟨.nop, tls, [.load c began loc .announce]⟩
  | .take n p i =>
      some ⟨.register n i p began, loc.setOffset tls (i + 1),
        cfg.debugAssert (sh.slot n i == NONE) .fastSlot (.load c began loc .unwind)
          [.load c began loc (.recheck n p i)]⟩
  | .recheck n p i =>
      if p.addr = (sh.ptr c).addr then
        some ⟨.nop, tls,
          finishLoad c began sh.time loc ⟨sh.ptr c, some (n, i), none⟩⟩
      else some ⟨.nop, tls, [.load c began loc (.payBack n p i)]⟩
  | .payBack n p i =>
      if sh.slot n i = p.addr then
        some ⟨.settle n i, tls, [.load c began loc .announce]⟩
      else
        some ⟨.nop, tls, finishLoad c began sh.time loc ⟨sh.rebind p, none, none⟩⟩
  | .announce =>
      some <| withNode cfg sh tls loc (.load c began loc .unwind) fun n =>
        let gen := nextGeneration cfg (loc.generation tls)
        ⟨.announce n (sh.cellAddr c), loc.setGeneration tls gen,
          cfg.debugAssert (gen / 2 % 2 == 0) .genTag (.load c began loc .unwind)
            [.load c began loc (.publish n gen)]⟩
  | .publish n gen =>
      let act := .publish n (gen + GEN_TAG)
      if cfg.debug && sh.control n != IDLE then
        some ⟨act, tls, [.panicked .leftControl, .load c began loc .unwind]⟩
      else if gen = 0 then
        -- The wrapped counter sends the node to cooldown, with the generation published.
        match loc with
        | .tls =>
            some ⟨act, { tls with node := none },
              [.cool n .reserve, .load c began .tls (.discardWait n (gen + GEN_TAG))]⟩
        | .tmp _ =>
            some ⟨act, tls,
              [.cool n .reserve,
                .load c began (.tmp none) (.discardWait n (gen + GEN_TAG))]⟩
      else some ⟨act, tls, [.load c began loc (.candidate n (gen + GEN_TAG))]⟩
  | .discardWait _ _ => none
  | .candidate n gen => some ⟨.nop, tls, [.load c began loc (.fill n gen (sh.ptr c))]⟩
  | .fill _ gen p =>
      some <| withNode cfg sh tls loc (.load c began loc .unwind) fun n =>
        ⟨.register n HELPING p began, tls,
          cfg.debugAssert (sh.slot n HELPING == NONE) .helpingSlot
            (.load c began loc .unwind)
            [.load c began loc (.confirm n gen p)]⟩
  | .confirm n gen p =>
      if sh.control n = gen then
        some ⟨.goIdle n, tls, [.load c began loc (.ownInc n p)]⟩
      else
        some ⟨.goIdle n, tls,
          cfg.debugAssert (tagOf (sh.control n) == REPLACEMENT_TAG) .replacementTag
            (.load c began loc .unwind)
            [.load c began loc
              (.envelope n p (sh.control n - tagOf (sh.control n))
                ((sh.gift n).getD ⟨0, 0, 0⟩))]⟩
  | .ownInc n p => some ⟨incAct p, tls, [.load c began loc (.ownPay n p)]⟩
  | .ownPay n p =>
      if sh.slot n HELPING = p.addr then
        some ⟨.settle n HELPING, tls, finishLoad c began sh.time loc ⟨p, none, none⟩⟩
      else
        some ⟨.nop, tls,
          [.dec p, .load c began loc (.decWait ⟨p, none, none⟩)]⟩
  | .envelope n p e _ =>
      some ⟨.nop, tls,
        [.load c began loc
          (.restore n p e { sh.handover (handoverNode e) with ty := sh.cellTy c })]⟩
  | .restore n p e r => some ⟨.setOffer n e, tls, [.load c began loc (.unused n p r)]⟩
  | .unused n p r =>
      if sh.slot n HELPING = p.addr then
        some ⟨.settle n HELPING, tls, finishLoad c began sh.time loc ⟨r, none, none⟩⟩
      else
        some ⟨.nop, tls,
          [.dec (sh.rebind p), .load c began loc (.decWait ⟨r, none, none⟩)]⟩
  | .decWait _ => none
  | .coolWait _ => none
  | .unwind => none

-----------------------------------------------------------------------------------------
-- debt/mod.rs and Slots::help
-----------------------------------------------------------------------------------------

/-- The `match` on the control word at the head of the loop in `Slots::help`. -/
def helpDispatch (h : Helping) : Option PayPc :=
  if tagOf h.control = GEN_TAG then some (.activeLoad h)
  else if tagOf h.control = REPLACEMENT_TAG ∨ h.control = IDLE then
    some (.slots h.who h.period 0)
  else none

/-- Continue `pay_all` after the `match`, which can only panic on an invalid word. -/
def payAt (c : CellId) (p : Ptr) (since : Nat) (loc : Loc) (h : Helping) : List Frame :=
  match helpDispatch h with
  | some pc => [.pay c p since loc pc]
  | none => [.panicked .invalidControl, .pay c p since loc (.unwind (some (h.who, h.period)))]

/-- The next node of `Node::traverse` inside `pay_all`. -/
def PayPc.at : Option NodeId → PayPc
  | none => .dropVal
  | some n => .reserve n

/-- The slot after the `j`-th one. -/
def PayPc.nextSlot (n : NodeId) (period j : Nat) : PayPc :=
  if j + 1 < HELPING + 1 then .slots n period (j + 1) else .leave n period

/-- `Debt::pay_all`. The frame holds the count of the pointer that was taken out of the
storage and hands the pointer back to the caller.
-/
def stepPay (cfg : Config) (sh : Shared) (tls : Tls) (c : CellId) (p : Ptr) (since : Nat)
    (loc : Loc)
    : PayPc → Option Effect
  | .enter =>
      if tls.alive then
        match tls.node with
        | some _ => some ⟨.nop, tls, [.pay c p since .tls .inc]⟩
        | none => some ⟨.nop, tls, [.get false .head, .pay c p since .tls .nodeWait]⟩
      else some ⟨.nop, tls, [.get true .head, .pay c p since (.tmp none) .nodeWait]⟩
  | .nodeWait => none
  | .inc => some ⟨incAct p, tls, [.pay c p since loc .head]⟩
  | .head => some ⟨.nop, tls, [.pay c p since loc (.at sh.head)]⟩
  | .reserve n =>
      some ⟨.enterWriter n, tls, [.pay c p since loc (.help n (sh.epoch n))]⟩
  | .help n period =>
      some <| withNode cfg sh tls loc (.pay c p since loc (.unwind (some (n, period)))) fun self =>
        ⟨.nop, tls,
          cfg.debugAssert (sh.control self == IDLE) .selfIdle
            (.pay c p since loc (.unwind (some (n, period))))
            (payAt c p since loc ⟨n, period, self, sh.control n, sh.time, 1, sh.time⟩)⟩
  | .activeLoad h =>
      some ⟨.nop, tls,
        cfg.debugAssert (h.self != h.who) .helpMyself
          (.pay c p since loc (.unwind (some (h.who, h.period)))) <|
          if sh.activeAddr h.who = sh.cellAddr c then
            [.load c sh.time .tls .enter, .loadFull c sh.time,
              .pay c p since loc (.replaceWait h sh.time)]
          else [.pay c p since loc (.recheck h)]⟩
  | .recheck h =>
      if sh.control h.who = h.control then
        some ⟨.nop, tls, [.pay c p since loc (.slots h.who h.period 0)]⟩
      else
        some ⟨.nop, tls,
          payAt c p since loc
            { h with control := sh.control h.who, seen := sh.time, pass := h.pass + 1 }⟩
  | .replaceWait _ _ => none
  | .theirSpace h r =>
      some ⟨.nop, tls, [.pay c p since loc (.mySpace h r (sh.spaceOffer h.who))]⟩
  | .mySpace h r their =>
      some ⟨.nop, tls, [.pay c p since loc (.fillSpace h r their (sh.spaceOffer h.self))]⟩
  | .fillSpace h r their mine =>
      some ⟨.setEnvelope mine r.ptr, tls,
        if tagOf mine = 0 then [.pay c p since loc (.offer h r their mine)]
        else [.panicked .envelopeTag, .pay c p since loc (.unwind (some (h.who, h.period)))]⟩
  | .offer h r their mine =>
      if sh.control h.who = h.control then
        some ⟨.handOver h.who h.self mine ⟨c, r.ptr, r.began, r.ended, sh.time⟩, tls,
          [.pay c p since loc (.exchange h their)]⟩
      else
        some ⟨.nop, tls,
          [.dec r.ptr,
            .pay c p since loc
              (.lostWait
                { h with control := sh.control h.who, seen := sh.time, pass := h.pass + 1 })]⟩
  | .exchange h their =>
      some ⟨.setOffer h.self their, tls, [.pay c p since loc (.slots h.who h.period 0)]⟩
  | .lostWait _ => none
  | .slots n period j =>
      if sh.slot n j = p.addr then
        some ⟨.settle n j, tls, [.pay c p since loc (.bump n period j)]⟩
      else some ⟨.nop, tls, [.pay c p since loc (.nextSlot n period j)]⟩
  | .bump n period j =>
      some ⟨incAct p, tls, [.pay c p since loc (.nextSlot n period j)]⟩
  | .leave n _ => some ⟨.leaveWriter n, tls, [.pay c p since loc (.at (sh.next n))]⟩
  | .dropVal => some ⟨.nop, tls, [.dec p, .pay c p since loc .decWait]⟩
  | .decWait => none
  | .coolWait => none
  | .unwind _ => none
  | .abandon n _ =>
      some ⟨.leaveWriter n, tls, [.dec p, .pay c p since loc (.unwind none)]⟩

/-- The end of `pay_all`: a temporary node is sent to cooldown first. -/
def finishPay (c : CellId) (p : Ptr) (since : Nat) : Loc → List Frame
  | .tmp (some n) => [.cool n .reserve, .pay c p since (.tmp none) .coolWait]
  | _ => [.ret (.walked c p since) (.ptr p)]

-----------------------------------------------------------------------------------------
-- lib.rs, strategy/hybrid.rs and cache.rs
-----------------------------------------------------------------------------------------

/-- `ArcSwapAny::swap`: the exchange, before `wait_for_readers`. -/
def stepSwap (sh : Shared) (tls : Tls) (c op : Nat) (new : Ptr) : Effect :=
  ⟨.write c op new, tls, [.pay c (sh.ptr c) (sh.time + 1) .tls .enter, .swapWait c]⟩

/-- `HybridStrategy::compare_and_swap`. -/
def stepCas (sh : Shared) (tls : Tls) (spurious : Bool) (c op cur : Nat) (new : Ptr)
    : CasPc → Option Effect
  | .exchange old =>
      if (sh.ptr c).addr = cur ∧ spurious = false then
        some ⟨.write c op new, tls,
          [.pay c old.ptr (sh.time + 1) .tls .enter, .cas c op cur new (.payWait old)]⟩
      else some ⟨.nop, tls, [.guardDrop old, .cas c op cur new .retryWait]⟩
  | _ => none

/-- `Cache::revalidate`. -/
def stepCache (sh : Shared) (tls : Tls) (c : CellId) (p : Ptr) : CachePc → Option Effect
  | .peek =>
      if p.addr = (sh.ptr c).addr then some ⟨.nop, tls, [.ret .plain (.ptr p)]⟩
      else
        some ⟨.nop, tls,
          [.load c sh.time .tls .enter, .loadFull c sh.time,
            .cache c p (.loadWait sh.time)]⟩
  | _ => none

/-- One atomic step of the top frame. Frames that wait for a callee or run user code have
no step of their own.
-/
def stepFrame (cfg : Config) (sh : Shared) (tls : Tls) (spurious : Bool)
    : Frame → Option Effect
  | .get tmp pc => some (stepGet sh tls spurious tmp pc)
  | .cool n pc => some (stepCool sh tls n pc)
  | .dec p => some (stepDec sh tls p)
  | .panicked _ => some ⟨.nop, tls, [.ret .plain .unwound]⟩
  | .into g spec pc => stepInto sh tls g spec pc
  | .guardDrop g => some (stepGuardDrop sh tls g)
  | .load c began loc pc => stepLoad cfg sh tls c began loc pc
  | .pay c p since loc pc => stepPay cfg sh tls c p since loc pc
  | .swap c op new => some (stepSwap sh tls c op new)
  | .cas c op cur new pc => stepCas sh tls spurious c op cur new pc
  | .cache c p pc => stepCache sh tls c p pc
  | .cellDrop c .free => some ⟨.freeCell c, tls, [.ret .plain .unit]⟩
  | .cellInto c (some p) => some ⟨.freeCell c, tls, [.ret .plain (.ptr p)]⟩
  | _ => none

-----------------------------------------------------------------------------------------
-- Returning to a caller
-----------------------------------------------------------------------------------------

/-- What a frame drops when a panic of the crate unwinds through it. A count that is held
by a raw pointer only is leaked.
-/
def unwindThrough (sh : Shared) : Frame → Option (List Frame)
  | .load c began (.tmp (some n)) .unwind =>
      some [.cool n .reserve, .load c began (.tmp none) .unwind]
  | .load c began _ .unwind => some [.ret (.load c began) .unwound]
  | .loadFull c began => some [.ret (.load c began) .unwound]
  | .pay c p since loc (.unwind (some (n, period))) =>
      some [.pay c p since loc (.abandon n period)]
  | .pay c p since loc (.replaceWait h _) =>
      some [.pay c p since loc (.abandon h.who h.period)]
  | .swapWait _ => some [.ret .plain .unwound]
  | .storeWait _ => some [.ret .plain .unwound]
  | .cas c op cur new (.loadWait _) => some [.dec new, .cas c op cur new .unwind]
  | .cas c op cur new (.payWait old) => some [.guardDrop old, .cas c op cur new .unwind]
  | .rcu _ _ (.loadWait _) => some [.ret .plain .unwound]
  | .rcu c op (.casWait cur _ _) => some [.guardDrop cur, .rcu c op .unwindWait]
  | .cache _ p (.loadWait _) => some [.ret .plain (.ptr p)]
  | .cellDrop c .payWait => some [.cellDrop c .free]
  | .cellInto c none =>
      some [.pay c (sh.ptr c) (sh.time + 1) .tls .enter, .cellDrop c .payWait]
  | _ => none

/-- The frames a waiting caller continues with when its callee returns. -/
def resume (sh : Shared) : Frame → Ret → Option (List Frame)
  | .load c began _ .nodeWait, .node n tmp =>
      some [.load c began (if tmp then .tmp (some n) else .tls)
        (if sh.useFast c then .first else .announce)]
  | .load c began loc (.discardWait n gen), .unit =>
      some [.load c began loc (.candidate n gen)]
  | .load c began loc (.decWait g), .unit => some (finishLoad c began sh.time loc g)
  | .load c began _ (.coolWait g), .unit => some [.ret (.load c began) (.prot g)]
  | .loadFull c began, .prot g => some [.into g (.load c began) .inc]
  | .into g spec .decWait, .unit => some [.ret spec (.ptr g.ptr)]
  | .pay c p since _ .nodeWait, .node n tmp =>
      some [.pay c p since (if tmp then .tmp (some n) else .tls) .inc]
  | .pay c p since loc (.replaceWait h began), .ptr r =>
      some [.pay c p since loc (.theirSpace h ⟨r, began, sh.time⟩)]
  | .pay c p since loc (.lostWait h), .unit => some (payAt c p since loc h)
  | .pay c p since loc .decWait, .unit => some (finishPay c p since loc)
  | .pay c p since _ .coolWait, .unit => some [.ret (.walked c p since) (.ptr p)]
  | .pay c p since (.tmp (some n)) (.unwind none), .unit =>
      some [.cool n .reserve, .pay c p since (.tmp none) (.unwind none)]
  | .pay c p since _ (.unwind none), .unit => some [.ret (.walked c p since) .unwound]
  | .load c began loc .unwind, .unit => unwindThrough sh (.load c began loc .unwind)
  | .swapWait _, .ptr p => some [.ret .plain (.ptr p)]
  | .storeWait _, .ptr p => some [.dec p]
  | .cas c op cur new (.loadWait _), .prot old =>
      -- Observation of their inequality is enough to make a verdict.
      if old.ptr.addr ≠ cur then some [.dec new, .cas c op cur new (.rejectWait old)]
      else some [.cas c op cur new (.exchange old)]
  | .cas c op cur new .retryWait, .unit =>
      some [.load c sh.time .tls .enter, .cas c op cur new (.loadWait sh.time)]
  | .cas c op cur new (.payWait old), .ptr p =>
      some [.dec p, .cas c op cur new (.decWait old)]
  | .cas c op cur new (.decWait old), .unit =>
      some [.ret (.swapped c op cur new) (.prot old)]
  | .cas c op cur new (.rejectWait old), .unit =>
      some [.ret (.swapped c op cur new) (.prot old)]
  | .cas c op cur new .unwind, .unit => some [.ret (.swapped c op cur new) .unwound]
  | .rcu c op (.loadWait _), .prot cur =>
      some [.closure cur.ptr, .rcu c op (.closureWait cur 1)]
  | .rcu c op (.closureWait cur calls), .ptr new =>
      some [.load c sh.time .tls .enter, .cas c op cur.ptr.addr new (.loadWait sh.time),
        .rcu c op (.casWait cur new calls)]
  | .rcu c op (.closureWait cur _), .unwound =>
      some [.guardDrop cur, .rcu c op .unwindWait]
  | .rcu c op (.casWait cur _ calls), .prot prev =>
      if cur.ptr.addr = prev.ptr.addr then
        some [.into prev (.value prev.ptr) .inc, .rcu c op (.intoWait cur prev.ptr calls)]
      else some [.guardDrop cur, .rcu c op (.againWait prev calls)]
  | .rcu c op (.intoWait cur _ calls), .ptr r =>
      some [.guardDrop cur, .rcu c op (.doneWait r calls)]
  | .rcu _ _ (.doneWait r _), .unit => some [.ret .plain (.ptr r)]
  | .rcu c op (.againWait prev calls), .unit =>
      some [.closure prev.ptr, .rcu c op (.closureWait prev (calls + 1))]
  | .rcu _ _ .unwindWait, .unit => some [.ret .plain .unwound]
  | .cache c p (.loadWait _), .ptr r => some [.dec p, .cache c p (.decWait r)]
  | .cache _ _ (.decWait r), .unit => some [.ret .plain (.ptr r)]
  | .cellDrop c .payWait, .ptr p => some [.dec p, .cellDrop c .decWait]
  | .cellDrop c .decWait, .unit => some [.cellDrop c .free]
  | .cellInto c none, .ptr p => some [.cellInto c (some p)]
  | caller, .unwound => unwindThrough sh caller
  | _, _ => none

end ArcSwap
