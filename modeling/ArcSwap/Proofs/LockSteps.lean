import ArcSwap.Model.LockStrategy
import ArcSwap.Proofs.Steps

/-! What one step can do under the strategy `RwLock<()>`, said once, and one step of the whole
program as a change of one thread.
-/

namespace ArcSwap.Locked

-----------------------------------------------------------------------------------------
-- Frames
-----------------------------------------------------------------------------------------

/-- The steps of a frame that is at the top of its stack. -/
inductive FrameStep (sh : Shared) : Frame → Act → List Frame → Prop
  | decNull {p} (null : p.addr = 0) : FrameStep sh (.dec p) (.mem .nop) [.ret .plain .unit]
  | decLast {p} (real : p.addr ≠ 0) (one : (sh.mem.heap p.addr).map Obj.strong = some 1)
    : FrameStep sh (.dec p) (.mem (.dec p.addr)) [.destructor p]
  | decMore {p} (real : p.addr ≠ 0) (other : (sh.mem.heap p.addr).map Obj.strong ≠ some 1)
    : FrameStep sh (.dec p) (.mem (.dec p.addr)) [.ret .plain .unit]
  | loadLock {c began} (free : (sh.lock c).writer = false)
    : FrameStep sh (.load c began .lock) (.lockRead c) [.load c began .read]
  | loadRead {c began}
    : FrameStep sh (.load c began .read) (.mem .nop) [.load c began (.inc (sh.mem.ptr c))]
  | loadInc {c began p}
    : FrameStep sh (.load c began (.inc p)) (.mem (incAct p)) [.load c began (.unlock p)]
  | loadUnlock {c began p}
    : FrameStep sh (.load c began (.unlock p)) (.unlockRead c)
        [.ret (.load c began) (.prot ⟨p, none, some ⟨c, began, sh.mem.time⟩⟩)]
  | waitLock {c p} (free : (sh.lock c).free = true)
    : FrameStep sh (.wait c p .lock) (.lockWrite c) [.wait c p .unlock]
  | waitUnlock {c p}
    : FrameStep sh (.wait c p .unlock) (.unlockWrite c) [.ret .plain (.ptr p)]
  | swap {c op new}
    : FrameStep sh (.swap c op new) (.mem (.write c op new))
        [.wait c (sh.mem.ptr c) .lock, .swapWait c]
  | casLock {c op cur new} (free : (sh.lock c).free = true)
    : FrameStep sh (.cas c op cur new .lock) (.lockWrite c) [.cas c op cur new .exchange]
  | casExchange {c op cur new} (same : (sh.mem.ptr c).addr = cur.asRaw)
    : FrameStep sh (.cas c op cur new .exchange) (.mem (.write c op new))
        (dropCurrent c op cur new (sh.mem.ptr c))
  | casReject {c op cur new} (other : (sh.mem.ptr c).addr ≠ cur.asRaw)
    : FrameStep sh (.cas c op cur new .exchange) (.mem .nop)
        [.cas c op cur new (.inc (sh.mem.ptr c))]
  | casInc {c op cur new old}
    : FrameStep sh (.cas c op cur new (.inc old)) (.mem (incAct old))
        [.dec new, .cas c op cur new (.newWait old)]
  | casUnlock {c op cur new old}
    : FrameStep sh (.cas c op cur new (.unlock old)) (.unlockWrite c)
        [.ret (.swapped c op cur.asRaw new) (.prot ⟨old, none, none⟩)]
  | cacheHit {c p} (same : p.addr = (sh.mem.ptr c).addr)
    : FrameStep sh (.cache c p .peek) (.mem .nop) [.ret .plain (.ptr p)]
  | cacheMiss {c p} (other : p.addr ≠ (sh.mem.ptr c).addr)
    : FrameStep sh (.cache c p .peek) (.mem .nop)
        [.load c sh.mem.time .lock, .loadFull c sh.mem.time, .cache c p (.loadWait sh.mem.time)]
  | dropFree {c} : FrameStep sh (.cellDrop c .free) (.mem (.freeCell c)) [.ret .plain .unit]
  | intoFree {c p}
    : FrameStep sh (.cellInto c (some p)) (.mem (.freeCell c)) [.ret .plain (.ptr p)]

theorem stepFrame_moves {sh fr e} (h : stepFrame sh fr = some e)
    : FrameStep sh fr e.act e.frames := by
  cases fr with
  | dec p =>
      cases h
      by_cases null : p.addr = 0
      · simpa [stepDec, null] using FrameStep.decNull null
      · by_cases one : (sh.mem.heap p.addr).map Obj.strong = some 1
        · simpa [stepDec, null, one] using FrameStep.decLast null one
        · simpa [stepDec, null, one] using FrameStep.decMore null one
  | load c began pc =>
      cases pc with
      | lock =>
          simp only [stepFrame, stepLoad] at h
          split at h <;> cases h
          exact .loadLock (by simpa using ‹¬(sh.lock c).writer = true›)
      | read => cases h; exact .loadRead
      | inc p => cases h; exact .loadInc
      | unlock p => cases h; exact .loadUnlock
  | wait c p pc =>
      cases pc with
      | lock =>
          simp only [stepFrame, stepWait] at h
          split at h <;> cases h
          exact .waitLock ‹_›
      | unlock => cases h; exact .waitUnlock
  | swap c op new => cases h; exact .swap
  | cas c op cur new pc =>
      cases pc with
      | lock =>
          simp only [stepFrame, stepCas] at h
          split at h <;> cases h
          exact .casLock ‹_›
      | exchange =>
          simp only [stepFrame, stepCas] at h
          split at h <;> cases h
          · exact .casExchange ‹_›
          · exact .casReject ‹_›
      | inc old => cases h; exact .casInc
      | newWait old | currentWait old => cases h
      | unlock old => cases h; exact .casUnlock
  | cache c p pc =>
      cases pc with
      | peek =>
          simp only [stepFrame, stepCache] at h
          split at h <;> cases h
          · exact .cacheHit ‹_›
          · exact .cacheMiss ‹_›
      | loadWait | decWait => cases h
  | cellDrop c pc =>
      cases pc with
      | free => cases h; exact .dropFree
      | payWait | decWait => cases h
  | cellInto c p =>
      cases p with
      | some p => cases h; exact .intoFree
      | none => cases h
  | ret | closure | destructor | loadFull | swapWait | storeWait | rcu => cases h

/-- How a waiting frame continues when its callee returns. -/
inductive ResumeStep : Frame → Ret → List Frame → Prop
  | loadFull {c began g}
    : ResumeStep (.loadFull c began) (.prot g) [.ret (.load c began) (.ptr g.ptr)]
  | swap {c p} : ResumeStep (.swapWait c) (.ptr p) [.ret .plain (.ptr p)]
  | store {c p} : ResumeStep (.storeWait c) (.ptr p) [.dec p]
  | casRejected {c op cur new old}
    : ResumeStep (.cas c op cur new (.newWait old)) .unit (dropCurrent c op cur new old)
  | casDropped {c op cur new old}
    : ResumeStep (.cas c op cur new (.currentWait old)) .unit [.cas c op cur new (.unlock old)]
  | rcuLoad {c op began cur}
    : ResumeStep (.rcu c op (.loadWait began)) (.prot cur)
        [.closure cur.ptr, .rcu c op (.closureWait cur 1)]
  | rcuTry {c op cur calls new}
    : ResumeStep (.rcu c op (.closureWait cur calls)) (.ptr new)
        [.cas c op (.raw cur.ptr.addr) new .lock, .rcu c op (.casWait cur new calls)]
  | rcuPanic {c op cur calls}
    : ResumeStep (.rcu c op (.closureWait cur calls)) .unwound
        [.dec cur.ptr, .rcu c op .unwindWait]
  | rcuSwapped {c op cur new calls prev} (same : cur.ptr.addr = prev.ptr.addr)
    : ResumeStep (.rcu c op (.casWait cur new calls)) (.prot prev)
        [.dec cur.ptr, .rcu c op (.doneWait prev.ptr calls)]
  | rcuLost {c op cur new calls prev} (other : cur.ptr.addr ≠ prev.ptr.addr)
    : ResumeStep (.rcu c op (.casWait cur new calls)) (.prot prev)
        [.dec cur.ptr, .rcu c op (.againWait prev calls)]
  | rcuDone {c op r calls}
    : ResumeStep (.rcu c op (.doneWait r calls)) .unit [.ret .plain (.ptr r)]
  | rcuAgain {c op prev calls}
    : ResumeStep (.rcu c op (.againWait prev calls)) .unit
        [.closure prev.ptr, .rcu c op (.closureWait prev (calls + 1))]
  | rcuUnwind {c op} : ResumeStep (.rcu c op .unwindWait) .unit [.ret .plain .unwound]
  | cacheLoad {c p began r}
    : ResumeStep (.cache c p (.loadWait began)) (.ptr r) [.dec p, .cache c p (.decWait r)]
  | cacheDone {c p r} : ResumeStep (.cache c p (.decWait r)) .unit [.ret .plain (.ptr r)]
  | dropWaited {c p}
    : ResumeStep (.cellDrop c .payWait) (.ptr p) [.dec p, .cellDrop c .decWait]
  | dropDec {c} : ResumeStep (.cellDrop c .decWait) .unit [.cellDrop c .free]
  | intoWaited {c p} : ResumeStep (.cellInto c none) (.ptr p) [.cellInto c (some p)]

theorem resume_moves {caller v frames} (h : resume caller v = some frames)
    : ResumeStep caller v frames := by
  unfold resume at h
  split at h
  case h_9 =>
    split at h <;> cases h
    · exact .rcuSwapped ‹_›
    · exact .rcuLost ‹_›
  all_goals cases h
  all_goals constructor

-----------------------------------------------------------------------------------------
-- One step of the program
-----------------------------------------------------------------------------------------

/-- What one step changes: user code gives up `taken`, the frames `old` at the top of the stack are
replaced by `new`, and user code gets `given`.
-/
structure Change where
  taken : List (Nat × UserVal)
  old : List Frame
  act : Act
  new : List Frame
  given : Option UserVal

def State.without (s : State) : List (Nat × UserVal) → State
  | [] => s
  | (v, _) :: taken => (s.take v).without taken

/-- User code has these values, one after the other. -/
def State.Has (s : State) : List (Nat × UserVal) → Prop
  | [] => True
  | (v, u) :: taken => s.vals v = some u ∧ (s.take v).Has taken

section without

variable (s : State) (taken : List (Nat × UserVal))

@[simp]
theorem State.without_sh : (s.without taken).sh = s.sh := by
  induction taken generalizing s with
  | nil => rfl
  | cons vu taken ih => exact ih _

@[simp]
theorem State.without_nThr : (s.without taken).nThr = s.nThr := by
  induction taken generalizing s with
  | nil => rfl
  | cons vu taken ih => exact ih _

@[simp]
theorem State.without_stack : (s.without taken).stack = s.stack := by
  induction taken generalizing s with
  | nil => rfl
  | cons vu taken ih => exact ih _

@[simp]
theorem State.without_nVals : (s.without taken).nVals = s.nVals := by
  induction taken generalizing s with
  | nil => rfl
  | cons vu taken ih => exact ih _

end without

def State.with (s : State) : Option UserVal → State
  | none => s
  | some u => s.give u

/-- What an access does to the memory. -/
def Act.onMem : Act → ArcSwap.Act
  | .mem act => act
  | _ => .nop

@[simp]
theorem Act.onMem_mem (act : ArcSwap.Act) : (Act.mem act).onMem = act := rfl

/-- The memory and the locks after one step. -/
def Shared.after (sh : Shared) (a : Act) : Shared :=
  { a.exec sh with mem := sh.mem.after a.onMem }

/-- The state after a change of thread `t`, whose other frames are `rest`. -/
def State.after (s : State) (t : ThreadId) (δ : Change) (rest : List Frame) : State :=
  {
    ((s.without δ.taken).with δ.given) with
    sh := s.sh.after δ.act
    stack := Function.update s.stack t (δ.new ++ rest)
  }

@[simp]
theorem Shared.after_mem (sh : Shared) (a : Act) : (sh.after a).mem = sh.mem.after a.onMem := rfl

@[simp]
theorem Shared.after_lock_mem (sh : Shared) (a : ArcSwap.Act)
    : (sh.after (.mem a)).lock = sh.lock := rfl

@[simp]
theorem State.after_sh (s : State) (t : ThreadId) (δ : Change) (rest : List Frame)
    : (s.after t δ rest).sh = s.sh.after δ.act := rfl

@[simp]
theorem State.after_stack (s : State) (t : ThreadId) (δ : Change) (rest : List Frame)
    : (s.after t δ rest).stack = Function.update s.stack t (δ.new ++ rest) := rfl

@[simp]
theorem State.after_nThr (s : State) (t : ThreadId) (δ : Change) (rest : List Frame)
    : (s.after t δ rest).nThr = s.nThr := by
  obtain ⟨taken, old, act, new, given⟩ := δ
  cases given <;> exact s.without_nThr taken

/-- Time passes and the access is made. -/
theorem State.act_tick (s : State) (a : Act) : (s.act a).tick.sh = s.sh.after a := by
  cases a with
  | mem act => simp [State.act, State.tick, Shared.after, Act.exec, Act.onMem, ArcSwap.Shared.after]
  | _ => rfl

/-- The frames below are user code, or there are none. -/
def belowUser : List Frame → Prop
  | [] => True
  | fr :: _ => fr.isUser = true

/-- The operations on a live storage that user code can start. -/
inductive Entry (sh : Shared) (c : CellId) : Option Ptr → List Frame → Prop
  | load : Entry sh c none [.load c sh.mem.time .lock]
  | loadFull : Entry sh c none [.load c sh.mem.time .lock, .loadFull c sh.mem.time]
  | rcu : Entry sh c none [.load c sh.mem.time .lock, .rcu c sh.mem.time (.loadWait sh.mem.time)]
  | swap {p} : Entry sh c (some p) [.swap c sh.mem.time p]
  | store {p} : Entry sh c (some p) [.swap c sh.mem.time p, .storeWait c]
  | cas {p cur} : Entry sh c (some p) [.cas c sh.mem.time (.raw cur) p .lock]
  | cache {p} : Entry sh c (some p) [.cache c p .peek]

theorem entry_moves {sh c k p frames} (h : entry sh c k p = some frames) : Entry sh c p frames := by
  unfold entry at h
  split at h <;> cases h <;> constructor

/-- The changes that user code of a thread makes, whose frames below are `rest`. -/
inductive CallStep (s : State) (rest : List Frame) : Change → Prop
  | alloc {addr ty} (free : s.sh.mem.heap addr = none) (real : addr ≠ 0) (word : addr ≠ NONE)
    : CallStep s rest
        ⟨[], [], .mem (.newObj addr ty), [], some (.handle ⟨addr, ty, s.sh.mem.nextId⟩)⟩
  | null {ty} : CallStep s rest ⟨[], [], .mem .nop, [], some (.handle ⟨0, ty, 0⟩)⟩
  | clone {v u} (val : s.vals v = some u)
    : CallStep s rest ⟨[], [], .mem (incAct u.ptr), [], some (.handle u.ptr)⟩
  | cloneArg {p} (top : rest.head? = some (.closure p))
    : CallStep s rest ⟨[], [], .mem (incAct p), [], some (.handle p)⟩
  | drop {v u} (val : s.vals v = some u)
    : CallStep s rest ⟨[(v, u)], [], .mem .nop, [.dec u.ptr], none⟩
  | new {v p addr useFast} (val : s.vals v = some (.handle p)) (free : s.addrFree addr = true)
    : CallStep s rest ⟨[(v, .handle p)], [], .mem (.newCell p addr useFast), [], none⟩
  | moveCell {c addr} (live : s.sh.mem.status c = .live)
    : CallStep s rest ⟨[], [], .mem (.moveCell c addr), [], none⟩
  | start {c frames} (live : s.sh.mem.status c = .live) (entry : Entry s.sh c none frames)
    : CallStep s rest ⟨[], [], .mem .nop, frames, none⟩
  | startWith {c v p frames} (val : s.vals v = some (.handle p)) (live : s.sh.mem.status c = .live)
    (entry : Entry s.sh c (some p) frames)
    : CallStep s rest ⟨[(v, .handle p)], [], .mem .nop, frames, none⟩
  | casGuard {c g v cur p} (val : s.vals v = some (.handle p))
    (there : s.vals g = some (.guard cur)) (live : s.sh.mem.status c = .live)
    : CallStep s rest
        ⟨[(v, .handle p), (g, .guard cur)], [], .mem .nop,
          [.cas c s.sh.mem.time (.guard cur.ptr) p .lock], none⟩
  | guardIntoInner {v g} (val : s.vals v = some (.guard g))
    : CallStep s rest ⟨[(v, .guard g)], [], .mem .nop, [], some (.handle g.ptr)⟩
  | guardFromInner {v p} (val : s.vals v = some (.handle p))
    : CallStep s rest
        ⟨[(v, .handle p)], [], .mem .nop, [], some (.guard ⟨p, none, none⟩)⟩
  | intoInner {c addr} (live : s.sh.mem.status c = .live) (unused : s.borrowed c = false)
    : CallStep s rest
        ⟨[], [], .mem (.closeCell c addr),
          [.wait c (s.sh.mem.ptr c) .lock, .cellInto c none], none⟩
  | dropCell {c} (live : s.sh.mem.status c = .live) (unused : s.borrowed c = false)
    : CallStep s rest
        ⟨[], [], .mem (.closeCell c (s.sh.mem.cellAddr c)),
          [.wait c (s.sh.mem.ptr c) .lock, .cellDrop c .payWait], none⟩
  | closureRet {v p q} (val : s.vals v = some (.handle q)) (ty : q.ty = p.ty)
    : CallStep s rest
        ⟨[(v, .handle q)], [.closure p], .mem .nop, [.ret .plain (.ptr q)], none⟩
  | closurePanic {p}
    : CallStep s rest ⟨[], [.closure p], .mem .nop, [.ret .plain .unwound], none⟩
  | destructorRet {p}
    : CallStep s rest
        ⟨[], [.destructor p], .mem (.dealloc p.addr), [.ret .plain .unit], none⟩
  | exit : CallStep s rest ⟨[], [], .mem .nop, [], none⟩

/-- The changes of one step. -/
inductive Move (s : State) (rest : List Frame) : Change → Prop
  | frame {fr act frames} (step : FrameStep s.sh fr act frames)
    : Move s rest ⟨[], [fr], act, frames, none⟩
  | resume {spec v caller frames} (waits : caller.isUser = false)
    (step : ResumeStep caller v frames)
    : Move s rest ⟨[], [.ret spec v, caller], .mem .nop, frames, none⟩
  | deliver {spec v} (below : belowUser rest)
    : Move s rest ⟨[], [.ret spec v], .mem .nop, [], v.val⟩
  | call {δ} (below : δ.old = [] → belowUser rest) (step : CallStep s rest δ) : Move s rest δ

/-- The state `s'` is what a change of thread `t` makes of `s`. -/
def Moves (s : State) (t : ThreadId) (s' : State) : Prop :=
  ∃ δ rest, s.stack t = δ.old ++ rest ∧ Move s rest δ ∧ s' = s.after t δ rest

theorem run_moves {s : State} {t s'} (h : s.run t = some s') : Moves s t s'.tick := by
  unfold State.run at h
  split at h
  case h_1 => cases h
  case h_2 spec v top =>
    cases h
    refine ⟨⟨[], [.ret spec v], .mem .nop, [], v.val⟩, [], top, .deliver trivial, ?_⟩
    cases v <;> rfl
  case h_3 spec v caller rest top =>
    split at h
    · cases h
      refine ⟨⟨[], [.ret spec v], .mem .nop, [], v.val⟩, caller :: rest, top,
        .deliver ‹_›, ?_⟩
      cases v <;> rfl
    · obtain ⟨frames, eq, rfl⟩ := Option.map_eq_some_iff.mp h
      exact ⟨⟨[], [.ret spec v, caller], .mem .nop, frames, none⟩, rest, top,
        .resume (by simp_all) (resume_moves eq), rfl⟩
  case h_4 fr rest _ _ top =>
    obtain ⟨e, eq, rfl⟩ := Option.map_eq_some_iff.mp h
    have sh := s.act_tick e.act
    refine ⟨⟨[], [fr], e.act, e.frames, none⟩, rest, top, .frame (stepFrame_moves eq), ?_⟩
    simp only [State.tick, State.act] at sh
    simp [State.tick, State.act, State.setStack, State.after, State.with, State.without, sh]

theorem start_moves {s : State} {t c k s'} (h : s.start t c k = some s')
    : ∃ frames, s.sh.mem.status c = .live ∧ Entry s.sh c none frames
      ∧ s' = s.push t frames := by
  unfold State.start at h
  split at h
  · obtain ⟨frames, eq, rfl⟩ := Option.map_eq_some_iff.mp h
    exact ⟨frames, ‹_›, entry_moves eq, rfl⟩
  · cases h

theorem handleFor_eq {s : State} {c v p} (h : s.handleFor c v = some p)
    : s.vals v = some (.handle p) := by
  unfold State.handleFor at h
  split at h
  · split at h <;> cases h
    rename_i val _
    exact val
  · cases h

theorem startWith_moves {s : State} {t c v k s'} (h : s.startWith t c v k = some s')
    : ∃ p frames, s.vals v = some (.handle p) ∧ s.sh.mem.status c = .live
      ∧ Entry s.sh c (some p) frames ∧ s' = (s.take v).push t frames := by
  unfold State.startWith at h
  obtain ⟨p, handle, h⟩ := Option.bind_eq_some_iff.mp h
  have val := handleFor_eq handle
  split at h
  · obtain ⟨frames, eq, rfl⟩ := Option.map_eq_some_iff.mp h
    exact ⟨p, frames, val, ‹_›, entry_moves eq, rfl⟩
  · cases h

@[simp]
theorem State.push_nil (s : State) (t : ThreadId) : s.push t [] = s := by
  simp [State.push, State.setStack]

/-- Calls leave the frames below alone. -/
theorem push_moves {s s' : State} {t taken act new given} (user : s.atUser t = true)
    (step : CallStep s (s.stack t) ⟨taken, [], .mem act, new, given⟩)
    (eq : s' = (((s.without taken).act (.mem act)).push t new).with given)
    : Moves s t s'.tick := by
  have below : belowUser (s.stack t) := by
    revert user
    unfold State.atUser
    cases s.stack t <;> simp [belowUser]
  refine ⟨_, s.stack t, (List.nil_append _).symm, .call (fun _ => below) step, ?_⟩
  subst eq
  cases given <;>
    simp [State.tick, State.after, State.with, Shared.after, State.act, State.push, State.setStack,
      State.give, Act.exec, Act.onMem, ArcSwap.Shared.after]

theorem compareAndSwapGuard_moves {s s' : State} {t c g v} (user : s.atUser t = true)
    (h : s.compareAndSwapGuard t c g v = some s')
    : Moves s t s'.tick := by
  unfold State.compareAndSwapGuard at h
  obtain ⟨p, handle, guarded⟩ := Option.bind_eq_some_iff.mp h
  obtain ⟨u, there, started⟩ := Option.bind_eq_some_iff.mp guarded
  cases u with
  | handle => cases started
  | guard cur =>
      simp only at started
      split at started <;> cases started
      rename_i ok
      exact push_moves user (.casGuard (handleFor_eq handle) there ok.2) rfl

theorem call_moves {s : State} {t k s'} (user : s.atUser t = true) (h : s.call t k = some s')
    : Moves s t s'.tick := by
  have push (taken act new given)
      (step : CallStep s (s.stack t) ⟨taken, [], .mem act, new, given⟩)
      (eq : s' = (((s.without taken).act (.mem act)).push t new).with given)
      : Moves s t s'.tick :=
    push_moves user step eq
  have keep (taken act given) (step : CallStep s (s.stack t) ⟨taken, [], .mem act, [], given⟩)
      (eq : s' = ((s.without taken).act (.mem act)).with given)
      : Moves s t s'.tick :=
    push taken act [] given step (by rw [State.push_nil]; exact eq)
  have started {c k} (h : s.start t c k = some s') : Moves s t s'.tick := by
    obtain ⟨frames, live, entry, rfl⟩ := start_moves h
    exact push [] .nop frames none (.start live entry) rfl
  have startedWith {c v k} (h : s.startWith t c v k = some s') : Moves s t s'.tick := by
    obtain ⟨p, frames, val, live, entry, rfl⟩ := startWith_moves h
    exact push [(v, .handle p)] .nop frames none (.startWith val live entry) rfl
  cases k with
  | alloc addr ty =>
      simp only [State.call] at h
      split at h <;> cases h
      rename_i ok
      exact keep [] _ (some _) (.alloc ok.1 ok.2.1 ok.2.2) rfl
  | null ty => cases h; exact keep [] .nop (some _) .null rfl
  | clone v =>
      obtain ⟨u, val, h⟩ := Option.bind_eq_some_iff.mp h
      cases h
      exact keep [] _ (some _) (.clone val) rfl
  | cloneArg =>
      simp only [State.call] at h
      split at h <;> cases h
      rename_i p rest top
      exact keep [] _ (some (.handle p)) (.cloneArg (by simp [top])) rfl
  | dropVal v =>
      obtain ⟨u, val, h⟩ := Option.bind_eq_some_iff.mp h
      cases h
      exact push [(v, u)] .nop _ none (.drop val) rfl
  | new v addr useFast =>
      obtain ⟨u, val, h⟩ := Option.bind_eq_some_iff.mp h
      cases u
      · simp only at h
        split at h <;> cases h
        exact keep [(v, .handle _)] _ none (.new val ‹_›) rfl
      · cases h
  | moveCell c addr =>
      simp only [State.call] at h
      split at h <;> cases h
      rename_i ok
      exact keep [] _ none (.moveCell ok.1) rfl
  | load c | loadFull c | rcu c => exact started h
  | store c v | swap c v | compareAndSwap c cur v | revalidate c v => exact startedWith h
  | guardIntoInner v =>
      obtain ⟨u, val, h⟩ := Option.bind_eq_some_iff.mp h
      cases u <;> cases h
      exact keep [(v, .guard _)] .nop (some _) (.guardIntoInner val) rfl
  | guardFromInner v =>
      obtain ⟨u, val, h⟩ := Option.bind_eq_some_iff.mp h
      cases u <;> cases h
      exact keep [(v, .handle _)] .nop (some _) (.guardFromInner val) rfl
  | intoInner c addr =>
      simp only [State.call] at h
      split at h <;> cases h
      rename_i ok
      exact push [] _ _ none (.intoInner ok.1 ok.2.1) rfl
  | dropCell c =>
      simp only [State.call] at h
      split at h <;> cases h
      rename_i ok
      exact push [] _ _ none (.dropCell ok.1 ok.2) rfl
  | closureRet v =>
      simp only [State.call] at h
      split at h
      · split at h <;> cases h
        rename_i p rest q top val ty
        refine ⟨⟨[(v, .handle q)], [.closure p], .mem .nop, [.ret .plain (.ptr q)], none⟩,
          rest, top, .call (by simp) (.closureRet val ty), rfl⟩
      · cases h
  | closurePanic =>
      simp only [State.call] at h
      split at h <;> cases h
      rename_i p rest top
      exact ⟨⟨[], [.closure p], .mem .nop, [.ret .plain .unwound], none⟩, rest, top,
        .call (by simp) .closurePanic, rfl⟩
  | destructorRet =>
      simp only [State.call] at h
      split at h <;> cases h
      rename_i p rest top
      exact ⟨⟨[], [.destructor p], .mem (.dealloc p.addr), [.ret .plain .unit], none⟩,
        rest, top, .call (by simp) .destructorRet, rfl⟩
  | exit =>
      simp only [State.call] at h
      split at h <;> cases h
      exact keep [] .nop none .exit rfl

/-- The thread that makes the step. -/
def Label.thread : Label → ThreadId
  | .run t _ | .call t _ | .compareAndSwapGuard t _ _ _ => t

/-- Every step is a change of its thread. -/
theorem step_moves {s s' : State} {l : Label} (taken : step s l = some s')
    : l.thread < s.nThr ∧ Moves s l.thread s' := by
  cases l with
  | run t spurious =>
      simp only [step] at taken
      split at taken
      · obtain ⟨s₁, ran, rfl⟩ := Option.map_eq_some_iff.mp taken
        exact ⟨‹_›, run_moves ran⟩
      · cases taken
  | call t k =>
      simp only [step] at taken
      split at taken
      · obtain ⟨s₁, called, rfl⟩ := Option.map_eq_some_iff.mp taken
        rename_i ok
        exact ⟨ok.1, call_moves ok.2 called⟩
      · cases taken
  | compareAndSwapGuard t c g v =>
      simp only [step] at taken
      split at taken
      · obtain ⟨s₁, called, rfl⟩ := Option.map_eq_some_iff.mp taken
        rename_i ok
        exact ⟨ok.1, compareAndSwapGuard_moves ok.2 called⟩
      · cases taken

end ArcSwap.Locked
