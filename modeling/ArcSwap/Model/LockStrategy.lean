import ArcSwap.Model.System

/-! The strategy `RwLock<()>` of strategy/rw_lock.rs, under the same operations of lib.rs and
cache.rs. Every storage has its own lock, and a guard is a clone of the pointer. The memory is the
one of the default strategy, without any debt node.
-/

namespace ArcSwap.Locked

-----------------------------------------------------------------------------------------
-- Locks and frames
-----------------------------------------------------------------------------------------

/-- `RwLock<()>`: how many readers have it, and whether a writer has it. -/
structure Lock where
  readers : Nat
  writer : Bool
deriving DecidableEq

/-- Neither readers nor a writer have the lock. -/
def Lock.free (l : Lock) : Bool := l.readers == 0 && !l.writer

structure Shared where
  mem : ArcSwap.Shared
  /-- `ArcSwapAny::strategy`. -/
  lock : CellId → Lock

inductive Act
  | mem (act : ArcSwap.Act)
  | lockRead (c : CellId)
  | unlockRead (c : CellId)
  | lockWrite (c : CellId)
  | unlockWrite (c : CellId)

/-- Replace the state of one lock. -/
def Shared.setLock (sh : Shared) (c : CellId) (f : Lock → Lock) : Shared :=
  { sh with lock := Function.update sh.lock c (f (sh.lock c)) }

def Act.exec (sh : Shared) : Act → Shared
  | .mem act => { sh with mem := act.exec sh.mem }
  | .lockRead c => sh.setLock c fun l => { l with readers := l.readers + 1 }
  | .unlockRead c => sh.setLock c fun l => { l with readers := l.readers - 1 }
  | .lockWrite c => sh.setLock c fun l => { l with writer := true }
  | .unlockWrite c => sh.setLock c fun l => { l with writer := false }

/-- `load`. The lock is dropped at the end of the scope. -/
inductive LoadPc
  | lock
  | read
  | inc (p : Ptr)
  | unlock (p : Ptr)
deriving DecidableEq

/-- `wait_for_readers`. -/
inductive WaitPc
  | lock
  | unlock
deriving DecidableEq

/-- What is passed to `compare_and_swap` as `current`: a reference or a raw pointer, of which the
address is used only, or a guard by value, which has a count.
-/
inductive Current
  | raw (addr : Nat)
  | guard (p : Ptr)
deriving DecidableEq

/-- `AsRaw::as_raw`. -/
def Current.asRaw : Current → Nat
  | .raw addr => addr
  | .guard p => p.addr

/-- `compare_and_swap`. The new pointer, if it did not go in, and a guard that was passed as
`current` are dropped with the lock held.
-/
inductive CasPc
  | lock
  | exchange
  | inc (old : Ptr)
  | newWait (old : Ptr)
  | currentWait (old : Ptr)
  | unlock (old : Ptr)
deriving DecidableEq

/-- An activation record. Frames with the names of frames of the default strategy are the same code
of lib.rs and cache.rs.
-/
inductive Frame
  | ret (spec : Spec) (v : Ret)
  | closure (p : Ptr)
  | destructor (p : Ptr)
  | dec (p : Ptr)
  | load (c : CellId) (began : Nat) (pc : LoadPc)
  | loadFull (c : CellId) (began : Nat)
  /-- The wait for readers after `p` was taken out, which hands `p` back to its caller. -/
  | wait (c : CellId) (p : Ptr) (pc : WaitPc)
  | swap (c : CellId) (op : Nat) (new : Ptr)
  | swapWait (c : CellId)
  | storeWait (c : CellId)
  | cas (c : CellId) (op : Nat) (cur : Current) (new : Ptr) (pc : CasPc)
  | rcu (c : CellId) (op : Nat) (pc : RcuPc)
  | cache (c : CellId) (p : Ptr) (pc : CachePc)
  | cellDrop (c : CellId) (pc : DropPc)
  | cellInto (c : CellId) (p : Option Ptr)
deriving DecidableEq

/-- User code is running in this frame. -/
def Frame.isUser : Frame → Bool
  | .closure _ | .destructor _ => true
  | _ => false

-----------------------------------------------------------------------------------------
-- One step of a frame
-----------------------------------------------------------------------------------------

/-- The access of a step and the frames that replace the top frame. -/
structure Effect where
  act : Act
  frames : List Frame

/-- `T::dec`. The destructor runs when the count reaches 0. -/
def stepDec (sh : Shared) (p : Ptr) : Effect :=
  if p.addr = 0 then ⟨.mem .nop, [.ret .plain .unit]⟩
  else
    ⟨.mem (.dec p.addr),
      if (sh.mem.heap p.addr).map Obj.strong = some 1 then [.destructor p]
      else [.ret .plain .unit]⟩

/-- `<RwLock<()> as InnerStrategy<T>>::load`. It is blocked as long as a writer has the lock. -/
def stepLoad (sh : Shared) (c began : Nat) : LoadPc → Option Effect
  | .lock =>
      if (sh.lock c).writer then none else some ⟨.lockRead c, [.load c began .read]⟩
  | .read => some ⟨.mem .nop, [.load c began (.inc (sh.mem.ptr c))]⟩
  | .inc p => some ⟨.mem (incAct p), [.load c began (.unlock p)]⟩
  | .unlock p =>
      some ⟨.unlockRead c,
        [.ret (.load c began) (.prot ⟨p, none, some ⟨c, began, sh.mem.time⟩⟩)]⟩

/-- `wait_for_readers`. It is blocked as long as anybody else has the lock. -/
def stepWait (sh : Shared) (c : CellId) (p : Ptr) : WaitPc → Option Effect
  | .lock =>
      if (sh.lock c).free then some ⟨.lockWrite c, [.wait c p .unlock]⟩ else none
  | .unlock => some ⟨.unlockWrite c, [.ret .plain (.ptr p)]⟩

/-- The end of `compare_and_swap`, which drops `current`. -/
def dropCurrent (c op : Nat) (cur : Current) (new old : Ptr) : List Frame :=
  match cur with
  | .raw _ => [.cas c op cur new (.unlock old)]
  | .guard p => [.dec p, .cas c op cur new (.currentWait old)]

/-- `<RwLock<()> as CaS<T>>::compare_and_swap`. -/
def stepCas (sh : Shared) (c op : Nat) (cur : Current) (new : Ptr) : CasPc → Option Effect
  | .lock =>
      if (sh.lock c).free then some ⟨.lockWrite c, [.cas c op cur new .exchange]⟩ else none
  | .exchange =>
      if (sh.mem.ptr c).addr = cur.asRaw then
        some ⟨.mem (.write c op new), dropCurrent c op cur new (sh.mem.ptr c)⟩
      else some ⟨.mem .nop, [.cas c op cur new (.inc (sh.mem.ptr c))]⟩
  | .inc old => some ⟨.mem (incAct old), [.dec new, .cas c op cur new (.newWait old)]⟩
  | .newWait _ | .currentWait _ => none
  | .unlock old =>
      some ⟨.unlockWrite c, [.ret (.swapped c op cur.asRaw new) (.prot ⟨old, none, none⟩)]⟩

/-- `Cache::revalidate`. -/
def stepCache (sh : Shared) (c : CellId) (p : Ptr) : CachePc → Option Effect
  | .peek =>
      if p.addr = (sh.mem.ptr c).addr then some ⟨.mem .nop, [.ret .plain (.ptr p)]⟩
      else
        some ⟨.mem .nop,
          [.load c sh.mem.time .lock, .loadFull c sh.mem.time,
            .cache c p (.loadWait sh.mem.time)]⟩
  | _ => none

/-- One atomic step of the top frame. -/
def stepFrame (sh : Shared) : Frame → Option Effect
  | .dec p => some (stepDec sh p)
  | .load c began pc => stepLoad sh c began pc
  | .wait c p pc => stepWait sh c p pc
  -- The exchange of `ArcSwapAny::swap` is made without the lock.
  | .swap c op new => some ⟨.mem (.write c op new), [.wait c (sh.mem.ptr c) .lock, .swapWait c]⟩
  | .cas c op cur new pc => stepCas sh c op cur new pc
  | .cache c p pc => stepCache sh c p pc
  | .cellDrop c .free => some ⟨.mem (.freeCell c), [.ret .plain .unit]⟩
  | .cellInto c (some p) => some ⟨.mem (.freeCell c), [.ret .plain (.ptr p)]⟩
  | _ => none

/-- The frames a waiting caller continues with when its callee returns. -/
def resume : Frame → Ret → Option (List Frame)
  | .loadFull c began, .prot g => some [.ret (.load c began) (.ptr g.ptr)]
  | .swapWait _, .ptr p => some [.ret .plain (.ptr p)]
  | .storeWait _, .ptr p => some [.dec p]
  | .cas c op cur new (.newWait old), .unit => some (dropCurrent c op cur new old)
  | .cas c op cur new (.currentWait old), .unit => some [.cas c op cur new (.unlock old)]
  | .rcu c op (.loadWait _), .prot cur =>
      some [.closure cur.ptr, .rcu c op (.closureWait cur 1)]
  | .rcu c op (.closureWait cur calls), .ptr new =>
      some [.cas c op (.raw cur.ptr.addr) new .lock, .rcu c op (.casWait cur new calls)]
  | .rcu c op (.closureWait cur _), .unwound => some [.dec cur.ptr, .rcu c op .unwindWait]
  | .rcu c op (.casWait cur _ calls), .prot prev =>
      if cur.ptr.addr = prev.ptr.addr then
        some [.dec cur.ptr, .rcu c op (.doneWait prev.ptr calls)]
      else some [.dec cur.ptr, .rcu c op (.againWait prev calls)]
  | .rcu _ _ (.doneWait r _), .unit => some [.ret .plain (.ptr r)]
  | .rcu c op (.againWait prev calls), .unit =>
      some [.closure prev.ptr, .rcu c op (.closureWait prev (calls + 1))]
  | .rcu _ _ .unwindWait, .unit => some [.ret .plain .unwound]
  | .cache c p (.loadWait _), .ptr r => some [.dec p, .cache c p (.decWait r)]
  | .cache _ _ (.decWait r), .unit => some [.ret .plain (.ptr r)]
  | .cellDrop c .payWait, .ptr p => some [.dec p, .cellDrop c .decWait]
  | .cellDrop c .decWait, .unit => some [.cellDrop c .free]
  | .cellInto c none, .ptr p => some [.cellInto c (some p)]
  | _, _ => none

-----------------------------------------------------------------------------------------
-- The whole program
-----------------------------------------------------------------------------------------

structure State where
  sh : Shared
  nThr : Nat
  stack : ThreadId → List Frame
  nVals : Nat
  vals : Nat → Option UserVal

def State.init (n : Nat) : State where
  sh := ⟨.init, fun _ => ⟨0, false⟩⟩
  nThr := n
  stack := fun _ => []
  nVals := 0
  vals := fun _ => none

/-- The storage a frame borrows. -/
def Frame.cell : Frame → Option CellId
  | .load c _ _ | .loadFull c _ | .wait c _ _ | .swap c _ _ | .swapWait c | .storeWait c
  | .cas c _ _ _ _ | .rcu c _ _ | .cache c _ _ | .cellDrop c _ | .cellInto c _ => some c
  | _ => none

/-- Some activation record borrows the storage. -/
def State.borrowed (s : State) (c : CellId) : Bool :=
  (List.range s.nThr).any fun t => (s.stack t).any fun fr => fr.cell == some c

/-- No other container occupies the address. -/
def State.addrFree (s : State) (a : Nat) : Bool :=
  (List.range s.sh.mem.nCells).all fun c =>
    s.sh.mem.status c == .gone || s.sh.mem.cellAddr c != a

/-- The thread is executing user code. -/
def State.atUser (s : State) (t : ThreadId) : Bool :=
  match s.stack t with
  | [] => true
  | fr :: _ => fr.isUser

def State.setStack (s : State) (t : ThreadId) (stack : List Frame) : State :=
  { s with stack := Function.update s.stack t stack }

/-- Push activation records onto the stack of a thread. -/
def State.push (s : State) (t : ThreadId) (frames : List Frame) : State :=
  s.setStack t (frames ++ s.stack t)

/-- User code gets a value. -/
def State.give (s : State) (v : UserVal) : State :=
  { s with nVals := s.nVals + 1, vals := Function.update s.vals s.nVals (some v) }

/-- User code gives a value away. -/
def State.take (s : State) (v : Nat) : State :=
  { s with vals := Function.update s.vals v none }

def State.act (s : State) (a : Act) : State := { s with sh := a.exec s.sh }

/-- A result reaches user code. -/
def State.deliver (s : State) : Ret → State
  | .ptr p => s.give (.handle p)
  | .prot g => s.give (.guard g)
  | _ => s

/-- The handle with this number, if it has the pointee type of the storage. -/
def State.handleFor (s : State) (c v : Nat) : Option Ptr :=
  match s.vals v with
  | some (.handle p) => if p.ty = s.sh.mem.cellTy c then some p else none
  | _ => none

/-- The frames of an operation on a live storage that user code starts with an owned value or
without one.
-/
def entry (sh : Shared) (c : CellId) : Call → Option Ptr → Option (List Frame)
  | .load _, none => some [.load c sh.mem.time .lock]
  | .loadFull _, none => some [.load c sh.mem.time .lock, .loadFull c sh.mem.time]
  | .rcu _, none =>
      some [.load c sh.mem.time .lock, .rcu c sh.mem.time (.loadWait sh.mem.time)]
  | .swap _ _, some p => some [.swap c sh.mem.time p]
  | .store _ _, some p => some [.swap c sh.mem.time p, .storeWait c]
  | .compareAndSwap _ cur _, some p => some [.cas c sh.mem.time (.raw cur) p .lock]
  | .revalidate _ _, some p => some [.cache c p .peek]
  | _, _ => none

/-- Start an operation on a live storage. -/
def State.start (s : State) (t : ThreadId) (c : CellId) (k : Call) : Option State :=
  if s.sh.mem.status c = .live then (entry s.sh c k none).map (s.push t) else none

/-- Start an operation on a live storage that takes the handle `v`. -/
def State.startWith (s : State) (t : ThreadId) (c v : Nat) (k : Call) : Option State := do
  let p ← s.handleFor c v
  if s.sh.mem.status c = .live then (entry s.sh c k (some p)).map ((s.take v).push t) else none

/-- `compare_and_swap` of the handle `v` against the guard `g`, which is passed by value. -/
def State.compareAndSwapGuard (s : State) (t : ThreadId) (c g v : Nat) : Option State := do
  let new ← s.handleFor c v
  match ← s.vals g with
  | .guard cur =>
      if cur.ptr.ty = s.sh.mem.cellTy c ∧ s.sh.mem.status c = .live then
        some (((s.take v).take g).push t [.cas c s.sh.mem.time (.guard cur.ptr) new .lock])
      else none
  | .handle _ => none

/-- What else user code of thread `t` does. A container is created with a new lock. -/
def State.call (s : State) (t : ThreadId) : Call → Option State
  | .alloc addr ty =>
      if s.sh.mem.heap addr = none ∧ addr ≠ 0 ∧ addr ≠ NONE then
        some ((s.act (.mem (.newObj addr ty))).give (.handle ⟨addr, ty, s.sh.mem.nextId⟩))
      else none
  | .null ty => some (s.give (.handle ⟨0, ty, 0⟩))
  | .clone v => do
      let u ← s.vals v
      some ((s.act (.mem (incAct u.ptr))).give (.handle u.ptr))
  | .cloneArg =>
      match s.stack t with
      | .closure p :: _ => some ((s.act (.mem (incAct p))).give (.handle p))
      | _ => none
  | .dropVal v => do
      let u ← s.vals v
      some ((s.take v).push t [.dec u.ptr])
  | .new v addr useFast => do
      match ← s.vals v with
      | .handle p =>
          if s.addrFree addr then some ((s.take v).act (.mem (.newCell p addr useFast)))
          else none
      | .guard _ => none
  | .moveCell c addr =>
      if s.sh.mem.status c = .live ∧ s.borrowed c = false ∧ s.addrFree addr then
        some (s.act (.mem (.moveCell c addr)))
      else none
  | .load c => s.start t c (.load c)
  | .loadFull c => s.start t c (.loadFull c)
  | .rcu c => s.start t c (.rcu c)
  | .store c v => s.startWith t c v (.store c v)
  | .swap c v => s.startWith t c v (.swap c v)
  | .compareAndSwap c cur v => s.startWith t c v (.compareAndSwap c cur v)
  | .revalidate c v => s.startWith t c v (.revalidate c v)
  | .guardIntoInner v => do
      match ← s.vals v with
      | .guard g => some ((s.take v).give (.handle g.ptr))
      | .handle _ => none
  | .guardFromInner v => do
      match ← s.vals v with
      | .handle p => some ((s.take v).give (.guard ⟨p, none, none⟩))
      | .guard _ => none
  | .intoInner c addr =>
      if s.sh.mem.status c = .live ∧ s.borrowed c = false ∧ s.addrFree addr then
        some ((s.act (.mem (.closeCell c addr))).push t
          [.wait c (s.sh.mem.ptr c) .lock, .cellInto c none])
      else none
  | .dropCell c =>
      if s.sh.mem.status c = .live ∧ s.borrowed c = false then
        some ((s.act (.mem (.closeCell c (s.sh.mem.cellAddr c)))).push t
          [.wait c (s.sh.mem.ptr c) .lock, .cellDrop c .payWait])
      else none
  | .closureRet v =>
      match s.stack t, s.vals v with
      | .closure p :: rest, some (.handle q) =>
          if q.ty = p.ty then some ((s.take v).setStack t (.ret .plain (.ptr q) :: rest))
          else none
      | _, _ => none
  | .closurePanic =>
      match s.stack t with
      | .closure _ :: rest => some (s.setStack t (.ret .plain .unwound :: rest))
      | _ => none
  | .destructorRet =>
      match s.stack t with
      | .destructor p :: rest =>
          some ((s.act (.mem (.dealloc p.addr))).setStack t (.ret .plain .unit :: rest))
      | _ => none
  -- The strategy has no thread-local storage.
  | .exit => if s.stack t = [] then some s else none

/-- One step of the machine below user code: the top frame moves, or returns. -/
def State.run (s : State) (t : ThreadId) : Option State :=
  match s.stack t with
  | [] => none
  | .ret _ v :: [] => some ((s.setStack t []).deliver v)
  | .ret _ v :: caller :: rest =>
      if caller.isUser then some ((s.setStack t (caller :: rest)).deliver v)
      else (resume caller v).map fun frames => s.setStack t (frames ++ rest)
  | fr :: rest =>
      (stepFrame s.sh fr).map fun e => (s.act e.act).setStack t (e.frames ++ rest)

/-- Time passes with every step. -/
def State.tick (s : State) : State :=
  { s with sh := { s.sh with mem := { s.sh.mem with time := s.sh.mem.time + 1 } } }

inductive Label
  /-- One atomic step. Nothing fails spuriously, since the compare-exchange is a strong one. -/
  | run (t : ThreadId) (spurious : Bool)
  | call (t : ThreadId) (k : Call)
  | compareAndSwapGuard (t : ThreadId) (c : CellId) (g v : Nat)

/-- The step function of the program. -/
def step (s : State) : Label → Option State
  | .run t _ => if t < s.nThr then (s.run t).map State.tick else none
  | .call t k => if t < s.nThr ∧ s.atUser t then (s.call t k).map State.tick else none
  | .compareAndSwapGuard t c g v =>
      if t < s.nThr ∧ s.atUser t then (s.compareAndSwapGuard t c g v).map State.tick else none

end ArcSwap.Locked
