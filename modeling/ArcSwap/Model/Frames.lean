import ArcSwap.Model.Memory

/-! Activation records of the crate's functions. A thread is a stack of them, so that user
code (the closure of `rcu`, a destructor) can run in the middle of an operation and start
operations itself. Each program counter stands just before one atomic access of the source.
-/

namespace ArcSwap

-----------------------------------------------------------------------------------------
-- Values
-----------------------------------------------------------------------------------------

/-- History variable: the load of `cell` that produced a protection, and its interval. -/
structure Src where
  cell : CellId
  began : Nat
  ended : Nat
deriving DecidableEq

/-- `HybridProtection`: a pointer and the slot that may still owe its count. -/
structure Prot where
  ptr : Ptr
  debt : Option (NodeId × Nat)
  src : Option Src
deriving DecidableEq

/-- What a function returns. `unwound` is the return of a panic that came from user code.
-/
inductive Ret
  | unit
  | node (n : NodeId) (tmp : Bool)
  | ptr (p : Ptr)
  | prot (g : Prot)
  | unwound
deriving DecidableEq

/-- History variable: what a caller knows about the result it waits for. -/
inductive Spec
  | plain
  /-- The pointer was loaded from `c` by a load that began at `began`. -/
  | load (c : CellId) (began : Nat)
  /-- The outcome of `compare_and_swap`. -/
  | swapped (c : CellId) (op cur : Nat) (new : Ptr)
  /-- The very pointer `p`. -/
  | value (p : Ptr)
  /-- The pointer `p` that was taken out of `c` at `since`, after the walk over the nodes. -/
  | walked (c : CellId) (p : Ptr) (since : Nat)
deriving DecidableEq

/-- The places where the source can panic by itself. -/
inductive Site
  /-- `expect("LocalNode::with ensures it is set")`. -/
  | expectNode
  /-- `debug_assert_eq!(node.in_use.load(Relaxed), NODE_USED)`. -/
  | nodeUsed
  /-- `debug_assert_eq!(Debt::NONE, old)` of the fast slots. -/
  | fastSlot
  /-- `debug_assert_eq!(gen & GEN_TAG, 0)`. -/
  | genTag
  /-- `debug_assert_eq!(IDLE, prev, "Left control in wrong state")`. -/
  | leftControl
  /-- `debug_assert_eq!(Debt::NONE, prev)` of the helping slot. -/
  | helpingSlot
  /-- `debug_assert_eq!(control & TAG_MASK, REPLACEMENT_TAG)`. -/
  | replacementTag
  /-- `debug_assert_eq!(IDLE, self.control.load(Relaxed))`. -/
  | selfIdle
  /-- `debug_assert!(!ptr::eq(self, who))`. -/
  | helpMyself
  /-- `assert_eq!(my_space as usize & TAG_MASK, 0)`. -/
  | envelopeTag
  /-- `unreachable!("Invalid control value")`. -/
  | invalidControl
  /-- `assert_eq!(NODE_USED, self.in_use.swap(NODE_COOLDOWN))`. -/
  | cooldownUsed
deriving DecidableEq

-----------------------------------------------------------------------------------------
-- Local nodes
-----------------------------------------------------------------------------------------

/-- The thread-local `LocalNode`. `alive` is whether `THREAD_HEAD.try_with` succeeds. -/
structure Tls where
  alive : Bool
  node : Option NodeId
  offset : Nat
  generation : Nat
deriving DecidableEq

/-- The `LocalNode` that `LocalNode::with` passes on: the thread-local one, or a temporary
one, whose counters are at their defaults when it is used.
-/
inductive Loc
  | tls
  | tmp (node : Option NodeId)
deriving DecidableEq

def Loc.node (tls : Tls) : Loc → Option NodeId
  | .tls => tls.node
  | .tmp node => node

def Loc.offset (tls : Tls) : Loc → Nat
  | .tls => tls.offset
  | .tmp _ => 0

def Loc.generation (tls : Tls) : Loc → Nat
  | .tls => tls.generation
  | .tmp _ => 0

/-- The counters of a temporary node are not read again before it is dropped. -/
def Loc.setOffset (tls : Tls) (v : Nat) : Loc → Tls
  | .tls => { tls with offset := v }
  | .tmp _ => tls

def Loc.setGeneration (tls : Tls) (v : Nat) : Loc → Tls
  | .tls => { tls with generation := v }
  | .tmp _ => tls

-----------------------------------------------------------------------------------------
-- Program counters
-----------------------------------------------------------------------------------------

/-- `Node::get`. -/
inductive GetPc
  | head
  | checkUse (n : NodeId)
  /-- `check_cooldown` has seen `NODE_COOLDOWN`. -/
  | checkWriters (n : NodeId)
  /-- `check_cooldown` has seen no writer, in cooldown period `period`. -/
  | release (n : NodeId) (period : Nat)
  | claim (n : NodeId)
  | fresh
  | link (n : NodeId) (head : Option NodeId)
deriving DecidableEq

/-- `Node::start_cooldown`, with the cooldown period its reservation was taken in. -/
inductive CoolPc
  | reserve
  | swap (period : Nat)
  | unreserve (period : Nat)
deriving DecidableEq

/-- `HybridStrategy::load` with `attempt`, `fallback` and what these call. -/
inductive LoadPc
  | enter
  | nodeWait
  /-- `attempt`: the first read of the storage. -/
  | first
  /-- `fast::Slots::get_debt`: looking at the `k`-th slot after the offset. -/
  | scan (n : NodeId) (p : Ptr) (k : Nat)
  | take (n : NodeId) (p : Ptr) (i : Nat)
  /-- `attempt`: the second read of the storage. -/
  | recheck (n : NodeId) (p : Ptr) (i : Nat)
  | payBack (n : NodeId) (p : Ptr) (i : Nat)
  /-- `helping::Slots::get_debt`. -/
  | announce
  | publish (n : NodeId) (gen : Nat)
  /-- The counter wrapped: the node goes to cooldown. -/
  | discardWait (n : NodeId) (gen : Nat)
  /-- `fallback`: the read of the storage, after `gen` was published on `n`. -/
  | candidate (n : NodeId) (gen : Nat)
  /-- `Slots::confirm`. -/
  | fill (n : NodeId) (gen : Nat) (p : Ptr)
  | confirm (n : NodeId) (gen : Nat) (p : Ptr)
  /-- `into_inner` of the confirmed candidate. -/
  | ownInc (n : NodeId) (p : Ptr)
  | ownPay (n : NodeId) (p : Ptr)
  /-- `Slots::confirm` of a helped transaction; `r` is what the envelope holds. -/
  | envelope (n : NodeId) (p : Ptr) (e : Nat) (r : Ptr)
  | restore (n : NodeId) (p : Ptr) (e : Nat) (r : Ptr)
  /-- `fallback`: paying back the unused debt. -/
  | unused (n : NodeId) (p : Ptr) (r : Ptr)
  | decWait (g : Prot)
  /-- The temporary node goes to cooldown. -/
  | coolWait (g : Prot)
  /-- A panic unwinds through the load. -/
  | unwind
deriving DecidableEq

/-- `Protected::into_inner`. -/
inductive IntoPc
  | inc
  | pay
  | decWait
deriving DecidableEq

/-- The locals of one pass of the loop in `Slots::help`: the node being helped, reserved in
cooldown period `period`, the node of the helper, and the generation read from `control`.
History variables: when it was read, the number of the pass, and when `help` was called.
-/
structure Helping where
  who : NodeId
  period : Nat
  self : NodeId
  control : Nat
  seen : Nat
  pass : Nat
  entered : Nat
deriving DecidableEq

/-- A replacement, and the interval of the load it comes from. -/
structure Replacement where
  ptr : Ptr
  began : Nat
  ended : Nat
deriving DecidableEq

/-- `Debt::pay_all` and, from `help` to `lostWait`, `Slots::help`. -/
inductive PayPc
  | enter
  | nodeWait
  | inc
  | head
  | reserve (n : NodeId)
  | help (n : NodeId) (period : Nat)
  | activeLoad (h : Helping)
  | recheck (h : Helping)
  | replaceWait (h : Helping) (began : Nat)
  | theirSpace (h : Helping) (r : Replacement)
  | mySpace (h : Helping) (r : Replacement) (their : Nat)
  | fillSpace (h : Helping) (r : Replacement) (their mine : Nat)
  | offer (h : Helping) (r : Replacement) (their mine : Nat)
  | exchange (h : Helping) (their : Nat)
  | lostWait (h : Helping)
  | slots (n : NodeId) (period : Nat) (j : Nat)
  | bump (n : NodeId) (period : Nat) (j : Nat)
  | leave (n : NodeId) (period : Nat)
  | dropVal
  | decWait
  | coolWait
  /-- A panic unwinds through the walk, which drops the reservation it holds and its count. -/
  | unwind (held : Option (NodeId × Nat))
  | abandon (n : NodeId) (period : Nat)
deriving DecidableEq

/-- `HybridStrategy::compare_and_swap`. -/
inductive CasPc
  | loadWait (began : Nat)
  | exchange (old : Prot)
  | retryWait
  | payWait (old : Prot)
  | decWait (old : Prot)
  | rejectWait (old : Prot)
  | unwind
deriving DecidableEq

/-- `ArcSwapAny::rcu`, with the number of times the closure has been called. -/
inductive RcuPc
  | loadWait (began : Nat)
  | closureWait (cur : Prot) (calls : Nat)
  | casWait (cur : Prot) (new : Ptr) (calls : Nat)
  | intoWait (cur : Prot) (prev : Ptr) (calls : Nat)
  | doneWait (r : Ptr) (calls : Nat)
  | againWait (prev : Prot) (calls : Nat)
  | unwindWait
deriving DecidableEq

/-- `Cache::revalidate`. -/
inductive CachePc
  | peek
  | loadWait (began : Nat)
  | decWait (r : Ptr)
deriving DecidableEq

/-- The end of `Drop for ArcSwapAny`. -/
inductive DropPc
  | payWait
  | decWait
  | free
deriving DecidableEq

/-- An activation record. `began` and `op` are the times at which a load or an operation
was called, `since` when `p` was taken out of the storage.
-/
inductive Frame
  | ret (spec : Spec) (v : Ret)
  | panicked (site : Site)
  /-- User code: the closure of `rcu`, looking at `p`. -/
  | closure (p : Ptr)
  /-- User code: the destructor of the object at `p`, whose count has reached 0. -/
  | destructor (p : Ptr)
  | get (tmp : Bool) (pc : GetPc)
  | cool (n : NodeId) (pc : CoolPc)
  /-- `T::dec`, and the drop of a `T`. -/
  | dec (p : Ptr)
  | into (g : Prot) (spec : Spec) (pc : IntoPc)
  /-- `Drop for HybridProtection`. -/
  | guardDrop (g : Prot)
  | load (c : CellId) (began : Nat) (loc : Loc) (pc : LoadPc)
  | loadFull (c : CellId) (began : Nat)
  | pay (c : CellId) (p : Ptr) (since : Nat) (loc : Loc) (pc : PayPc)
  | swap (c : CellId) (op : Nat) (new : Ptr)
  | swapWait (c : CellId)
  | storeWait (c : CellId)
  | cas (c : CellId) (op : Nat) (cur : Nat) (new : Ptr) (pc : CasPc)
  | rcu (c : CellId) (op : Nat) (pc : RcuPc)
  | cache (c : CellId) (p : Ptr) (pc : CachePc)
  | cellDrop (c : CellId) (pc : DropPc)
  | cellInto (c : CellId) (p : Option Ptr)
deriving DecidableEq

/-- User code is running in this frame. -/
def Frame.isUser : Frame → Bool
  | .closure _ | .destructor _ => true
  | _ => false

end ArcSwap
