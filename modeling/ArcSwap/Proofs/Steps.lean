import ArcSwap.Proofs.Moves

/-! One step of the whole program as a change of one thread: the frames it takes from the
top of the stack, the access, the frames it puts there, and the values that user code gives
up and gets.
-/

namespace ArcSwap

-----------------------------------------------------------------------------------------
-- The top frame moves
-----------------------------------------------------------------------------------------

/-- The steps of a frame that is at the top of its stack. -/
inductive FrameStep (cfg : Config) (sh : Shared) (tls : Tls)
    : Frame → Act → Tls → List Frame → Prop
  | get {tmp pc act tls' frames} (step : GetStep sh tls tmp pc act tls' frames)
    : FrameStep cfg sh tls (.get tmp pc) act tls' frames
  | cool {n pc act frames} (step : CoolStep sh n pc act frames)
    : FrameStep cfg sh tls (.cool n pc) act tls frames
  | dec {p act frames} (step : DecStep sh p act frames)
    : FrameStep cfg sh tls (.dec p) act tls frames
  | panicked {site} : FrameStep cfg sh tls (.panicked site) .nop tls [.ret .plain .unwound]
  | into {g spec pc act frames} (step : IntoStep sh g spec pc act frames)
    : FrameStep cfg sh tls (.into g spec pc) act tls frames
  | guardDrop {g act frames} (step : GuardDropStep sh g act frames)
    : FrameStep cfg sh tls (.guardDrop g) act tls frames
  | load {c began loc pc act tls' frames}
    (step : LoadStep cfg sh tls c began loc pc act tls' frames)
    : FrameStep cfg sh tls (.load c began loc pc) act tls' frames
  | pay {c p since loc pc act frames} (step : PayStep cfg sh tls c p since loc pc act frames)
    : FrameStep cfg sh tls (.pay c p since loc pc) act tls frames
  | swap {c op new}
    : FrameStep cfg sh tls (.swap c op new) (.write c op new) tls
        [.pay c (sh.ptr c) (sh.time + 1) .tls .enter, .swapWait c]
  | casExchange {c op cur new old} (same : (sh.ptr c).addr = cur)
    : FrameStep cfg sh tls (.cas c op cur new (.exchange old)) (.write c op new) tls
        [.pay c old.ptr (sh.time + 1) .tls .enter, .cas c op cur new (.payWait old)]
  | casRetry {c op cur new old}
    : FrameStep cfg sh tls (.cas c op cur new (.exchange old)) .nop tls
        [.guardDrop old, .cas c op cur new .retryWait]
  | cacheHit {c p} (same : p.addr = (sh.ptr c).addr)
    : FrameStep cfg sh tls (.cache c p .peek) .nop tls [.ret .plain (.ptr p)]
  | cacheMiss {c p} (other : p.addr ≠ (sh.ptr c).addr)
    : FrameStep cfg sh tls (.cache c p .peek) .nop tls
        [.load c sh.time .tls .enter, .loadFull c sh.time, .cache c p (.loadWait sh.time)]
  | dropFree {c}
    : FrameStep cfg sh tls (.cellDrop c .free) (.freeCell c) tls [.ret .plain .unit]
  | intoFree {c p}
    : FrameStep cfg sh tls (.cellInto c (some p)) (.freeCell c) tls [.ret .plain (.ptr p)]

theorem stepFrame_moves {cfg sh tls spurious fr e}
    (h : stepFrame cfg sh tls spurious fr = some e)
    : FrameStep cfg sh tls fr e.act e.tls e.frames := by
  cases fr with
  | get tmp pc => cases h; exact .get stepGet_moves
  | cool n pc =>
      cases h
      cases pc <;> exact .cool stepCool_moves
  | dec p =>
      cases h
      have same : (stepDec sh tls p).tls = tls := by
        simp only [stepDec]
        split <;> rfl
      rw [same]
      exact .dec stepDec_moves
  | panicked site => cases h; exact .panicked
  | into g spec pc =>
      obtain ⟨step, same⟩ := stepInto_moves h
      rw [same]
      exact .into step
  | guardDrop g =>
      cases h
      have same : (stepGuardDrop sh tls g).tls = tls := by
        simp only [stepGuardDrop]
        split
        · rfl
        · split <;> rfl
      rw [same]
      exact .guardDrop stepGuardDrop_moves
  | load c began loc pc => exact .load (stepLoad_moves h)
  | pay c p since loc pc =>
      obtain ⟨step, same⟩ := stepPay_moves h
      rw [same]
      exact .pay step
  | swap c op new => cases h; exact .swap
  | cas c op cur new pc =>
      cases pc with
      | exchange old =>
          simp only [stepFrame, stepCas] at h
          split at h <;> cases h
          · exact .casExchange (And.left ‹_›)
          · exact .casRetry
      | loadWait | retryWait | payWait | decWait | rejectWait | unwind => cases h
  | cache c p pc =>
      cases pc with
      | peek =>
          simp only [stepFrame, stepCache] at h
          split at h <;> cases h
          · exact .cacheHit ‹_›
          · exact .cacheMiss ‹_›
      | loadWait | decWait => cases h
  | cellDrop c pc =>
      cases pc with
      | free => cases h; exact .dropFree
      | payWait | decWait => cases h
  | cellInto c p =>
      cases p with
      | some p => cases h; exact .intoFree
      | none => cases h
  | ret | closure | destructor | loadFull | swapWait | storeWait | rcu => cases h

-----------------------------------------------------------------------------------------
-- A callee returns
-----------------------------------------------------------------------------------------

/-- What a panic does to a frame it unwinds through. -/
inductive UnwindStep (sh : Shared) : Frame → List Frame → Prop
  | loadTmp {c began n}
    : UnwindStep sh (.load c began (.tmp (some n)) .unwind)
        [.cool n .reserve, .load c began (.tmp none) .unwind]
  | load {c began loc} (bare : ∀ n, loc ≠ .tmp (some n))
    : UnwindStep sh (.load c began loc .unwind) [.ret (.load c began) .unwound]
  | loadFull {c began}
    : UnwindStep sh (.loadFull c began) [.ret (.load c began) .unwound]
  | pay {c p since loc n period}
    : UnwindStep sh (.pay c p since loc (.unwind (some (n, period))))
        [.pay c p since loc (.abandon n period)]
  | payHelp {c p since loc h began}
    : UnwindStep sh (.pay c p since loc (.replaceWait h began))
        [.pay c p since loc (.abandon h.who h.period)]
  | swap {c} : UnwindStep sh (.swapWait c) [.ret .plain .unwound]
  | store {c} : UnwindStep sh (.storeWait c) [.ret .plain .unwound]
  | casLoad {c op cur new began}
    : UnwindStep sh (.cas c op cur new (.loadWait began))
        [.dec new, .cas c op cur new .unwind]
  | casPay {c op cur new old}
    : UnwindStep sh (.cas c op cur new (.payWait old))
        [.guardDrop old, .cas c op cur new .unwind]
  | rcuLoad {c op began}
    : UnwindStep sh (.rcu c op (.loadWait began)) [.ret .plain .unwound]
  | rcuCas {c op cur new calls}
    : UnwindStep sh (.rcu c op (.casWait cur new calls))
        [.guardDrop cur, .rcu c op .unwindWait]
  | cache {c p began}
    : UnwindStep sh (.cache c p (.loadWait began)) [.ret .plain (.ptr p)]
  | cellDrop {c} : UnwindStep sh (.cellDrop c .payWait) [.cellDrop c .free]
  | cellInto {c}
    : UnwindStep sh (.cellInto c none)
        [.pay c (sh.ptr c) (sh.time + 1) .tls .enter, .cellDrop c .payWait]

theorem unwindThrough_moves {sh caller frames} (h : unwindThrough sh caller = some frames)
    : UnwindStep sh caller frames := by
  unfold unwindThrough at h
  split at h <;> cases h
  case h_2 bare => exact .load fun n eq => bare n (by rw [eq])
  all_goals constructor

/-- How a waiting frame continues when its callee returns. -/
inductive ResumeStep (sh : Shared) : Frame → Ret → List Frame → Prop
  | loadNode {c began loc n tmp}
    : ResumeStep sh (.load c began loc .nodeWait) (.node n tmp)
        [.load c began (if tmp then .tmp (some n) else .tls)
          (if sh.useFast c then .first else .announce)]
  | loadDiscard {c began loc n gen}
    : ResumeStep sh (.load c began loc (.discardWait n gen)) .unit
        [.load c began loc (.candidate n gen)]
  | loadDec {c began loc g}
    : ResumeStep sh (.load c began loc (.decWait g)) .unit
        (finishLoad c began sh.time loc g)
  | loadCool {c began loc g}
    : ResumeStep sh (.load c began loc (.coolWait g)) .unit [.ret (.load c began) (.prot g)]
  | loadUnwind {c began loc frames}
    (step : UnwindStep sh (.load c began loc .unwind) frames)
    : ResumeStep sh (.load c began loc .unwind) .unit frames
  | loadFull {c began g}
    : ResumeStep sh (.loadFull c began) (.prot g) [.into g (.load c began) .inc]
  | into {g spec} : ResumeStep sh (.into g spec .decWait) .unit [.ret spec (.ptr g.ptr)]
  | payNode {c p since loc n tmp}
    : ResumeStep sh (.pay c p since loc .nodeWait) (.node n tmp)
        [.pay c p since (if tmp then .tmp (some n) else .tls) .inc]
  | payReplace {c p since loc h began r}
    : ResumeStep sh (.pay c p since loc (.replaceWait h began)) (.ptr r)
        [.pay c p since loc (.theirSpace h ⟨r, began, sh.time⟩)]
  | payLost {c p since loc h frames} (dispatch : Dispatch c p since loc h frames)
    : ResumeStep sh (.pay c p since loc (.lostWait h)) .unit frames
  | payDec {c p since loc}
    : ResumeStep sh (.pay c p since loc .decWait) .unit (finishPay c p since loc)
  | payCool {c p since loc}
    : ResumeStep sh (.pay c p since loc .coolWait) .unit [.ret (.walked c p since) (.ptr p)]
  | payUnwindTmp {c p since n}
    : ResumeStep sh (.pay c p since (.tmp (some n)) (.unwind none)) .unit
        [.cool n .reserve, .pay c p since (.tmp none) (.unwind none)]
  | payUnwind {c p since loc} (bare : ∀ n, loc ≠ .tmp (some n))
    : ResumeStep sh (.pay c p since loc (.unwind none)) .unit [.ret (.walked c p since) .unwound]
  | swap {c p} : ResumeStep sh (.swapWait c) (.ptr p) [.ret .plain (.ptr p)]
  | store {c p} : ResumeStep sh (.storeWait c) (.ptr p) [.dec p]
  | casReject {c op cur new began old} (other : old.ptr.addr ≠ cur)
    : ResumeStep sh (.cas c op cur new (.loadWait began)) (.prot old)
        [.dec new, .cas c op cur new (.rejectWait old)]
  | casTry {c op cur new began old} (same : old.ptr.addr = cur)
    : ResumeStep sh (.cas c op cur new (.loadWait began)) (.prot old)
        [.cas c op cur new (.exchange old)]
  | casRetry {c op cur new}
    : ResumeStep sh (.cas c op cur new .retryWait) .unit
        [.load c sh.time .tls .enter, .cas c op cur new (.loadWait sh.time)]
  | casPaid {c op cur new old p}
    : ResumeStep sh (.cas c op cur new (.payWait old)) (.ptr p)
        [.dec p, .cas c op cur new (.decWait old)]
  | casDone {c op cur new old}
    : ResumeStep sh (.cas c op cur new (.decWait old)) .unit
        [.ret (.swapped c op cur new) (.prot old)]
  | casRejected {c op cur new old}
    : ResumeStep sh (.cas c op cur new (.rejectWait old)) .unit
        [.ret (.swapped c op cur new) (.prot old)]
  | casUnwind {c op cur new}
    : ResumeStep sh (.cas c op cur new .unwind) .unit
        [.ret (.swapped c op cur new) .unwound]
  | rcuLoad {c op began cur}
    : ResumeStep sh (.rcu c op (.loadWait began)) (.prot cur)
        [.closure cur.ptr, .rcu c op (.closureWait cur 1)]
  | rcuTry {c op cur calls new}
    : ResumeStep sh (.rcu c op (.closureWait cur calls)) (.ptr new)
        [.load c sh.time .tls .enter, .cas c op cur.ptr.addr new (.loadWait sh.time),
          .rcu c op (.casWait cur new calls)]
  | rcuPanic {c op cur calls}
    : ResumeStep sh (.rcu c op (.closureWait cur calls)) .unwound
        [.guardDrop cur, .rcu c op .unwindWait]
  | rcuSwapped {c op cur new calls prev} (same : cur.ptr.addr = prev.ptr.addr)
    : ResumeStep sh (.rcu c op (.casWait cur new calls)) (.prot prev)
        [.into prev (.value prev.ptr) .inc, .rcu c op (.intoWait cur prev.ptr calls)]
  | rcuLost {c op cur new calls prev} (other : cur.ptr.addr ≠ prev.ptr.addr)
    : ResumeStep sh (.rcu c op (.casWait cur new calls)) (.prot prev)
        [.guardDrop cur, .rcu c op (.againWait prev calls)]
  | rcuInto {c op cur prev calls r}
    : ResumeStep sh (.rcu c op (.intoWait cur prev calls)) (.ptr r)
        [.guardDrop cur, .rcu c op (.doneWait r calls)]
  | rcuDone {c op r calls}
    : ResumeStep sh (.rcu c op (.doneWait r calls)) .unit [.ret .plain (.ptr r)]
  | rcuAgain {c op prev calls}
    : ResumeStep sh (.rcu c op (.againWait prev calls)) .unit
        [.closure prev.ptr, .rcu c op (.closureWait prev (calls + 1))]
  | rcuUnwind {c op} : ResumeStep sh (.rcu c op .unwindWait) .unit [.ret .plain .unwound]
  | cacheLoad {c p began r}
    : ResumeStep sh (.cache c p (.loadWait began)) (.ptr r)
        [.dec p, .cache c p (.decWait r)]
  | cacheDone {c p r}
    : ResumeStep sh (.cache c p (.decWait r)) .unit [.ret .plain (.ptr r)]
  | dropPaid {c p}
    : ResumeStep sh (.cellDrop c .payWait) (.ptr p) [.dec p, .cellDrop c .decWait]
  | dropDec {c} : ResumeStep sh (.cellDrop c .decWait) .unit [.cellDrop c .free]
  | intoPaid {c p} : ResumeStep sh (.cellInto c none) (.ptr p) [.cellInto c (some p)]
  | unwind {caller frames} (step : UnwindStep sh caller frames)
    : ResumeStep sh caller .unwound frames

theorem resume_moves {sh caller v frames} (h : resume sh caller v = some frames)
    : ResumeStep sh caller v frames := by
  unfold resume at h
  split at h
  case h_17 c op cur new began old =>
    split at h <;> cases h
    · exact .casReject ‹_›
    · exact .casTry (not_not.mp ‹_›)
  case h_26 c op cur new calls prev =>
    split at h <;> cases h
    · exact .rcuSwapped ‹_›
    · exact .rcuLost ‹_›
  case h_13 bare =>
    cases h
    exact .payUnwind fun n eq => bare n eq
  all_goals try cases h
  all_goals first
    | exact .unwind (unwindThrough_moves h)
    | exact .loadUnwind (unwindThrough_moves h)
    | exact .payLost payAt_moves
    | constructor

-----------------------------------------------------------------------------------------
-- One step of the program
-----------------------------------------------------------------------------------------

/-- What one step changes: user code gives up `taken`, the frames `old` at the top of the
stack are replaced by `new`, and user code gets `given`.
-/
structure Change where
  taken : Option (Nat × UserVal)
  old : List Frame
  act : Act
  tls : Tls
  new : List Frame
  given : Option UserVal

/-- Take the value out of the pool, if there is one to take. -/
def State.without (s : State) : Option (Nat × UserVal) → State
  | none => s
  | some (v, _) => s.take v

/-- Put the value into the pool, if there is one. -/
def State.with (s : State) : Option UserVal → State
  | none => s
  | some u => s.give u

@[simp]
theorem Act.exec_time (sh : Shared) (a : Act) : (a.exec sh).time = sh.time := by
  cases a <;> rfl

/-- The memory after one step. -/
def Shared.after (sh : Shared) (a : Act) : Shared :=
  { a.exec sh with time := sh.time + 1 }

/-- The state after a change of thread `t`, whose other frames are `rest`. -/
def State.after (s : State) (t : ThreadId) (δ : Change) (rest : List Frame) : State :=
  {
    ((s.without δ.taken).with δ.given) with
    sh := s.sh.after δ.act
    thr := Function.update s.thr t ⟨δ.tls, δ.new ++ rest⟩
  }

@[simp]
theorem State.after_sh (s : State) (t : ThreadId) (δ : Change) (rest : List Frame)
    : (s.after t δ rest).sh = s.sh.after δ.act := rfl

@[simp]
theorem State.after_thr (s : State) (t : ThreadId) (δ : Change) (rest : List Frame)
    : (s.after t δ rest).thr = Function.update s.thr t ⟨δ.tls, δ.new ++ rest⟩ := rfl

@[simp]
theorem State.after_nThr (s : State) (t : ThreadId) (δ : Change) (rest : List Frame)
    : (s.after t δ rest).nThr = s.nThr := by
  obtain ⟨taken, old, act, tls, new, given⟩ := δ
  cases taken <;> cases given <;> rfl

/-- What a result is worth to user code. -/
def Ret.val : Ret → Option UserVal
  | .ptr p => some (.handle p)
  | .prot g => some (.guard g)
  | _ => none

/-- The frames below are user code, or there are none. -/
def belowUser : List Frame → Prop
  | [] => True
  | fr :: _ => fr.isUser = true

/-- The operations on a live storage that user code can start. -/
inductive Entry (sh : Shared) (c : CellId) : Option Ptr → List Frame → Prop
  | load : Entry sh c none [.load c sh.time .tls .enter]
  | loadFull : Entry sh c none [.load c sh.time .tls .enter, .loadFull c sh.time]
  | rcu : Entry sh c none [.load c sh.time .tls .enter, .rcu c sh.time (.loadWait sh.time)]
  | swap {p} : Entry sh c (some p) [.swap c sh.time p]
  | store {p} : Entry sh c (some p) [.swap c sh.time p, .storeWait c]
  | cas {p cur}
    : Entry sh c (some p)
        [.load c sh.time .tls .enter, .cas c sh.time cur p (.loadWait sh.time)]
  | cache {p} : Entry sh c (some p) [.cache c p .peek]

theorem entry_moves {sh c k p frames} (h : entry sh c k p = some frames)
    : Entry sh c p frames := by
  unfold entry at h
  split at h <;> cases h <;> constructor

/-- The changes that user code of a thread makes, whose frames below are `rest`. -/
inductive CallStep (s : State) (tls : Tls) (rest : List Frame) : Change → Prop
  | alloc {addr ty} (free : s.sh.heap addr = none) (real : addr ≠ 0) (word : addr ≠ NONE)
    : CallStep s tls rest
        ⟨none, [], .newObj addr ty, tls, [], some (.handle ⟨addr, ty, s.sh.nextId⟩)⟩
  | null {ty} : CallStep s tls rest ⟨none, [], .nop, tls, [], some (.handle ⟨0, ty, 0⟩)⟩
  | clone {v u} (val : s.vals v = some u)
    : CallStep s tls rest ⟨none, [], incAct u.ptr, tls, [], some (.handle u.ptr)⟩
  | cloneArg {p} (top : rest.head? = some (.closure p))
    : CallStep s tls rest ⟨none, [], incAct p, tls, [], some (.handle p)⟩
  | dropHandle {v p} (val : s.vals v = some (.handle p))
    : CallStep s tls rest ⟨some (v, .handle p), [], .nop, tls, [.dec p], none⟩
  | dropGuard {v g} (val : s.vals v = some (.guard g))
    : CallStep s tls rest ⟨some (v, .guard g), [], .nop, tls, [.guardDrop g], none⟩
  | new {v p addr useFast} (val : s.vals v = some (.handle p))
    (free : s.addrFree addr = true)
    : CallStep s tls rest
        ⟨some (v, .handle p), [], .newCell p addr useFast, tls, [], none⟩
  | moveCell {c addr} (live : s.sh.status c = .live) (unused : s.borrowed c = false)
    (free : s.addrFree addr = true)
    : CallStep s tls rest ⟨none, [], .moveCell c addr, tls, [], none⟩
  | start {c frames} (live : s.sh.status c = .live) (entry : Entry s.sh c none frames)
    : CallStep s tls rest ⟨none, [], .nop, tls, frames, none⟩
  | startWith {c v p frames} (val : s.vals v = some (.handle p))
    (ty : p.ty = s.sh.cellTy c) (live : s.sh.status c = .live)
    (entry : Entry s.sh c (some p) frames)
    : CallStep s tls rest ⟨some (v, .handle p), [], .nop, tls, frames, none⟩
  | guardIntoInner {v g} (val : s.vals v = some (.guard g))
    : CallStep s tls rest ⟨some (v, .guard g), [], .nop, tls, [.into g .plain .inc], none⟩
  | guardFromInner {v p} (val : s.vals v = some (.handle p))
    : CallStep s tls rest
        ⟨some (v, .handle p), [], .nop, tls, [], some (.guard ⟨p, none, none⟩)⟩
  | intoInner {c addr} (live : s.sh.status c = .live) (unused : s.borrowed c = false)
    (free : s.addrFree addr = true)
    : CallStep s tls rest
        ⟨none, [], .closeCell c addr, tls,
          [.pay c (s.sh.ptr c) (s.sh.time + 1) .tls .enter, .cellInto c none], none⟩
  | dropCell {c} (live : s.sh.status c = .live) (unused : s.borrowed c = false)
    : CallStep s tls rest
        ⟨none, [], .closeCell c (s.sh.cellAddr c), tls,
          [.pay c (s.sh.ptr c) (s.sh.time + 1) .tls .enter, .cellDrop c .payWait], none⟩
  | closureRet {v p q} (val : s.vals v = some (.handle q)) (ty : q.ty = p.ty)
    : CallStep s tls rest
        ⟨some (v, .handle q), [.closure p], .nop, tls, [.ret .plain (.ptr q)], none⟩
  | closurePanic {p}
    : CallStep s tls rest ⟨none, [.closure p], .nop, tls, [.ret .plain .unwound], none⟩
  | destructorRet {p}
    : CallStep s tls rest
        ⟨none, [.destructor p], .dealloc p.addr, tls, [.ret .plain .unit], none⟩
  | exit (below : rest = []) (alive : tls.alive = true)
    : CallStep s tls rest
        ⟨none, [], .nop, { tls with alive := false, node := none },
          (tls.node.map fun n => Frame.cool n .reserve).toList, none⟩

/-- The changes of one step. -/
inductive Move (cfg : Config) (s : State) (tls : Tls) (rest : List Frame) : Change → Prop
  | frame {fr act tls' frames} (step : FrameStep cfg s.sh tls fr act tls' frames)
    : Move cfg s tls rest ⟨none, [fr], act, tls', frames, none⟩
  | resume {spec v caller frames} (waits : caller.isUser = false)
    (step : ResumeStep s.sh caller v frames)
    : Move cfg s tls rest ⟨none, [.ret spec v, caller], .nop, tls, frames, none⟩
  | deliver {spec v} (below : belowUser rest)
    : Move cfg s tls rest ⟨none, [.ret spec v], .nop, tls, [], v.val⟩
  | call {δ} (below : δ.old = [] → belowUser rest) (step : CallStep s tls rest δ)
    : Move cfg s tls rest δ

theorem run_moves {cfg s t spurious s'} (h : s.run cfg t spurious = some s')
    : ∃ δ rest, (s.thr t).stack = δ.old ++ rest ∧ Move cfg s (s.thr t).tls rest δ
      ∧ s'.tick = s.after t δ rest := by
  unfold State.run at h
  split at h
  case h_1 => cases h
  case h_2 spec v top =>
    cases h
    refine ⟨⟨none, [.ret spec v], .nop, _, [], v.val⟩, [], top, .deliver trivial, ?_⟩
    cases v <;> rfl
  case h_3 spec v caller rest top =>
    split at h
    · cases h
      refine ⟨⟨none, [.ret spec v], .nop, _, [], v.val⟩, caller :: rest, top,
        .deliver ‹_›, ?_⟩
      cases v <;> rfl
    · obtain ⟨frames, eq, rfl⟩ := Option.map_eq_some_iff.mp h
      exact ⟨⟨none, [.ret spec v, caller], .nop, _, frames, none⟩, rest, top,
        .resume (by simp_all) (resume_moves eq), rfl⟩
  case h_4 fr rest _ _ top =>
    obtain ⟨e, eq, rfl⟩ := Option.map_eq_some_iff.mp h
    refine ⟨_, rest, ?_, .frame (stepFrame_moves eq), ?_⟩
    · exact top
    · simp [State.tick, State.after, State.with, State.without, Shared.after]

theorem start_moves {s : State} {t c k s'} (h : s.start t c k = some s')
    : ∃ frames, s.sh.status c = .live ∧ Entry s.sh c none frames ∧ s' = s.push t frames := by
  unfold State.start at h
  split at h
  · obtain ⟨frames, eq, rfl⟩ := Option.map_eq_some_iff.mp h
    exact ⟨frames, ‹_›, entry_moves eq, rfl⟩
  · cases h

theorem handleFor_eq {s : State} {c v p} (h : s.handleFor c v = some p)
    : s.vals v = some (.handle p) ∧ p.ty = s.sh.cellTy c := by
  unfold State.handleFor at h
  split at h
  · split at h <;> cases h
    exact ⟨‹_›, ‹_›⟩
  · cases h

theorem startWith_moves {s : State} {t c v k s'} (h : s.startWith t c v k = some s')
    : ∃ p frames, s.vals v = some (.handle p) ∧ p.ty = s.sh.cellTy c
      ∧ s.sh.status c = .live ∧ Entry s.sh c (some p) frames
      ∧ s' = (s.take v).push t frames := by
  unfold State.startWith at h
  obtain ⟨p, handle, h⟩ := Option.bind_eq_some_iff.mp h
  obtain ⟨val, ty⟩ := handleFor_eq handle
  split at h
  · obtain ⟨frames, eq, rfl⟩ := Option.map_eq_some_iff.mp h
    exact ⟨p, frames, val, ty, ‹_›, entry_moves eq, rfl⟩
  · cases h

@[simp]
theorem State.push_nil (s : State) (t : ThreadId) : s.push t [] = s := by
  simp [State.push, State.setStack]

theorem call_moves (cfg : Config) {s : State} {t k s'} (user : s.atUser t = true)
    (h : s.call t k = some s')
    : ∃ δ rest, (s.thr t).stack = δ.old ++ rest ∧ Move cfg s (s.thr t).tls rest δ
      ∧ s'.tick = s.after t δ rest := by
  have below : belowUser (s.thr t).stack := by
    revert user
    unfold State.atUser
    cases (s.thr t).stack <;> simp [belowUser]
  have push (δ : Change) (old : δ.old = []) (tls : δ.tls = (s.thr t).tls)
      (step : CallStep s (s.thr t).tls (s.thr t).stack δ)
      (eq
        : s' = (((s.without δ.taken).act δ.act).push t δ.new).with δ.given)
      : ∃ δ rest, (s.thr t).stack = δ.old ++ rest ∧ Move cfg s (s.thr t).tls rest δ
        ∧ s'.tick = s.after t δ rest := by
    refine ⟨δ, (s.thr t).stack, by simp [old], .call (fun _ => below) step, ?_⟩
    subst eq
    obtain ⟨taken, old, act, tls', new, given⟩ := δ
    subst tls old
    cases taken <;> cases given <;>
      simp [State.tick, State.after, State.with, State.without, Shared.after, State.act,
        State.push, State.setStack, State.take, State.give]
  have keep (δ : Change) (old : δ.old = []) (tls : δ.tls = (s.thr t).tls)
      (new : δ.new = []) (step : CallStep s (s.thr t).tls (s.thr t).stack δ)
      (eq : s' = ((s.without δ.taken).act δ.act).with δ.given)
      : ∃ δ rest, (s.thr t).stack = δ.old ++ rest ∧ Move cfg s (s.thr t).tls rest δ
        ∧ s'.tick = s.after t δ rest :=
    push δ old tls step (by rw [new, State.push_nil]; exact eq)
  have started {c k} (h : s.start t c k = some s')
      : ∃ δ rest, (s.thr t).stack = δ.old ++ rest ∧ Move cfg s (s.thr t).tls rest δ
        ∧ s'.tick = s.after t δ rest := by
    obtain ⟨frames, live, entry, rfl⟩ := start_moves h
    exact push _ rfl rfl (.start live entry) rfl
  have startedWith {c v k} (h : s.startWith t c v k = some s')
      : ∃ δ rest, (s.thr t).stack = δ.old ++ rest ∧ Move cfg s (s.thr t).tls rest δ
        ∧ s'.tick = s.after t δ rest := by
    obtain ⟨p, frames, val, ty, live, entry, rfl⟩ := startWith_moves h
    exact push _ rfl rfl (.startWith val ty live entry) rfl
  cases k with
  | alloc addr ty =>
      simp only [State.call] at h
      split at h <;> cases h
      rename_i ok
      exact keep _ rfl rfl rfl (.alloc ok.1 ok.2.1 ok.2.2) rfl
  | null ty => cases h; exact keep _ rfl rfl rfl .null rfl
  | clone v =>
      obtain ⟨u, val, h⟩ := Option.bind_eq_some_iff.mp h
      cases h
      exact keep _ rfl rfl rfl (.clone val) rfl
  | cloneArg =>
      simp only [State.call] at h
      split at h
      · cases h
        rename_i p rest top
        exact keep _ rfl rfl rfl (.cloneArg (p := p) (by simp [top])) rfl
      · cases h
  | dropVal v =>
      obtain ⟨u, val, h⟩ := Option.bind_eq_some_iff.mp h
      cases u <;> cases h
      · exact push _ rfl rfl (.dropHandle val) rfl
      · exact push _ rfl rfl (.dropGuard val) rfl
  | new v addr useFast =>
      obtain ⟨u, val, h⟩ := Option.bind_eq_some_iff.mp h
      cases u
      · simp only at h
        split at h <;> cases h
        exact keep _ rfl rfl rfl (.new val ‹_›) rfl
      · cases h
  | moveCell c addr =>
      simp only [State.call] at h
      split at h <;> cases h
      rename_i ok
      exact keep _ rfl rfl rfl (.moveCell ok.1 ok.2.1 ok.2.2) rfl
  | load c | loadFull c | rcu c => exact started h
  | store c v | swap c v | compareAndSwap c cur v | revalidate c v => exact startedWith h
  | guardIntoInner v =>
      obtain ⟨u, val, h⟩ := Option.bind_eq_some_iff.mp h
      cases u <;> cases h
      exact push _ rfl rfl (.guardIntoInner val) rfl
  | guardFromInner v =>
      obtain ⟨u, val, h⟩ := Option.bind_eq_some_iff.mp h
      cases u <;> cases h
      exact keep _ rfl rfl rfl (.guardFromInner val) rfl
  | intoInner c addr =>
      simp only [State.call] at h
      split at h <;> cases h
      rename_i ok
      exact push _ rfl rfl (.intoInner ok.1 ok.2.1 ok.2.2) rfl
  | dropCell c =>
      simp only [State.call] at h
      split at h <;> cases h
      rename_i ok
      exact push _ rfl rfl (.dropCell ok.1 ok.2) rfl
  | closureRet v =>
      simp only [State.call] at h
      split at h
      · split at h <;> cases h
        rename_i p rest q top val ty
        refine ⟨_, rest, ?_, .call (by simp) (.closureRet (p := p) val ty), ?_⟩
        · exact top
        · simp [State.tick, State.after, State.with, State.without, Shared.after,
            State.setStack, State.take, Act.exec]
      · cases h
  | closurePanic =>
      simp only [State.call] at h
      split at h <;> cases h
      rename_i p rest top
      refine ⟨_, rest, ?_, .call (by simp) (.closurePanic (p := p)), ?_⟩
      · exact top
      · simp [State.tick, State.after, State.with, State.without, Shared.after,
          State.setStack, Act.exec]
  | destructorRet =>
      simp only [State.call] at h
      split at h <;> cases h
      rename_i p rest top
      refine ⟨_, rest, ?_, .call (by simp) (.destructorRet (p := p)), ?_⟩
      · exact top
      · simp [State.tick, State.after, State.with, State.without, Shared.after,
          State.setStack, State.act]
  | exit =>
      simp only [State.call] at h
      split at h
      · split at h <;> cases h
        rename_i top alive
        refine ⟨_, [], ?_, .call (by simp [belowUser]) (.exit rfl alive), ?_⟩
        · exact top
        · simp [State.tick, State.after, State.with, State.without, Shared.after, Act.exec]
      · cases h

/-- A step takes a result and its caller from the stack, or at most one frame. -/
theorem Move.old {cfg s tls rest δ} (move : Move cfg s tls rest δ)
    : (∃ spec v caller, δ.old = [.ret spec v, caller]) ∨ δ.old.length ≤ 1 := by
  cases move with
  | resume => exact .inl ⟨_, _, _, rfl⟩
  | frame | deliver => exact .inr (Nat.le_refl _)
  | call _ step => exact .inr (by cases step <;> simp)

/-- A frame that has been replaced by one frame was at the top, or below the result of its
callee.
-/
theorem Move.replaced {cfg s tls rest δ above below} {f f' : Frame}
    (move : Move cfg s tls rest δ) (before : δ.old ++ rest = above ++ f :: below)
    (after : δ.new ++ rest = f' :: below) (other : f ≠ f')
    (waits : ∀ spec v, f ≠ .ret spec v)
    : δ.old = above ++ [f] ∧ δ.new = [f'] ∧ rest = below := by
  have new := congrArg List.length after
  have old := congrArg List.length before
  simp only [List.length_append, List.length_cons] at old new
  have uncovered : rest.length ≠ below.length + 1 := by
    intro same
    have top : rest = f :: below := (List.append_inj' before same).2
    have top' : rest = f' :: below :=
      (List.append_inj' (after.trans (List.nil_append _).symm) same).2
    rw [top] at top'
    exact other (List.cons.inj top').1
  have same : rest.length = below.length := by
    rcases move.old with ⟨spec, v, caller, eq⟩ | few
    · have some : above ≠ [] := by
        rintro rfl
        rw [eq] at before
        exact waits spec v (List.cons.inj before).1.symm
      have long := List.length_pos_iff.mpr some
      rw [eq] at old
      simp only [List.length_cons, List.length_nil] at old
      omega
    · omega
  have before : δ.old ++ rest = (above ++ [f]) ++ below := by simpa using before
  obtain ⟨olds, rests⟩ := List.append_inj' before same
  have after : δ.new ++ rest = [f'] ++ below := after
  exact ⟨olds, (List.append_inj' after same).1, rests⟩

/-- The thread that takes the step. -/
def Label.thread : Label → ThreadId
  | .run t _ => t
  | .call t _ => t

/-- Every step is a change of one thread. -/
theorem step_moves {cfg s l s'} (h : step cfg s l = some s')
    : ∃ δ rest, l.thread < s.nThr ∧ (s.thr l.thread).stack = δ.old ++ rest
      ∧ Move cfg s (s.thr l.thread).tls rest δ ∧ s' = s.after l.thread δ rest := by
  cases l with
  | run t spurious =>
      simp only [step] at h
      split at h
      · obtain ⟨s₁, ran, rfl⟩ := Option.map_eq_some_iff.mp h
        obtain ⟨δ, rest, top, move, eq⟩ := run_moves ran
        exact ⟨δ, rest, ‹_›, top, move, eq⟩
      · cases h
  | call t k =>
      simp only [step] at h
      split at h
      · rename_i ok
        obtain ⟨s₁, ran, rfl⟩ := Option.map_eq_some_iff.mp h
        obtain ⟨δ, rest, top, move, eq⟩ := call_moves cfg ok.2 ran
        exact ⟨δ, rest, ok.1, top, move, eq⟩
      · cases h

end ArcSwap
