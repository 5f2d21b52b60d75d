import ArcSwap.Model.Step

/-! The whole program: any number of threads, what user code owns, and every operation user
code can start. A run interleaves the atomic steps of all threads arbitrarily.
-/

namespace ArcSwap

abbrev ThreadId := Nat

/-- A value owned by user code. -/
inductive UserVal
  /-- An owned `T`, outside the crate. -/
  | handle (p : Ptr)
  | guard (g : Prot)
deriving DecidableEq

structure Thread where
  tls : Tls
  stack : List Frame

structure State where
  sh : Shared
  nThr : Nat
  thr : ThreadId → Thread
  nVals : Nat
  vals : Nat → Option UserVal

/-- A thread that has not used the crate yet. -/
def Thread.init : Thread := ⟨⟨true, none, 0, 0⟩, []⟩

/-- The initial state of a program with `n` threads. A thread that starts later is one that
has done nothing so far.
-/
def State.init (n : Nat) : State where
  sh := .init
  nThr := n
  thr := fun _ => .init
  nVals := 0
  vals := fun _ => none

/-- What user code can do: directly with its values, and by calling the crate. -/
inductive Call
  /-- `Arc::new`, at an address of the allocator's choice. -/
  | alloc (addr ty : Nat)
  /-- `None`, or an empty weak pointer. -/
  | null (ty : Nat)
  /-- `T::clone`, of a handle or through a guard. -/
  | clone (v : Nat)
  /-- `T::clone` of the argument of an `rcu` closure. -/
  | cloneArg
  | dropVal (v : Nat)
  | new (v addr : Nat) (useFast : Bool)
  /-- A container that nobody borrows is moved in memory. -/
  | moveCell (c : CellId) (addr : Nat)
  | load (c : CellId)
  | loadFull (c : CellId)
  | store (c : CellId) (v : Nat)
  | swap (c : CellId) (v : Nat)
  | compareAndSwap (c : CellId) (cur v : Nat)
  | rcu (c : CellId)
  | revalidate (c : CellId) (v : Nat)
  | guardIntoInner (v : Nat)
  | guardFromInner (v : Nat)
  /-- `ArcSwapAny::into_inner`, which moves the container into its own frame. -/
  | intoInner (c : CellId) (addr : Nat)
  | dropCell (c : CellId)
  /-- The closure of `rcu` returns or panics; a destructor returns. -/
  | closureRet (v : Nat)
  | closurePanic
  | destructorRet
  /-- The thread-local storage of the thread is destroyed. -/
  | exit

inductive Label
  /-- One atomic step; `spurious` makes a weak compare-exchange fail. -/
  | run (t : ThreadId) (spurious : Bool)
  | call (t : ThreadId) (k : Call)

/-- The storage a frame borrows. -/
def Frame.cell : Frame → Option CellId
  | .load c _ _ _ | .loadFull c _ | .pay c _ _ _ _ | .swap c _ _ | .swapWait c
  | .storeWait c | .cas c _ _ _ _ | .rcu c _ _ | .cache c _ _ | .cellDrop c _
  | .cellInto c _ => some c
  | _ => none

/-- Some activation record borrows the storage. -/
def State.borrowed (s : State) (c : CellId) : Bool :=
  (List.range s.nThr).any fun t => (s.thr t).stack.any fun fr => fr.cell == some c

/-- No other container occupies the address. -/
def State.addrFree (s : State) (a : Nat) : Bool :=
  (List.range s.sh.nCells).all fun c => s.sh.status c == .gone || s.sh.cellAddr c != a

/-- The thread is executing user code. -/
def State.atUser (s : State) (t : ThreadId) : Bool :=
  match (s.thr t).stack with
  | [] => true
  | fr :: _ => fr.isUser

/-- Replace the stack of a thread. -/
def State.setStack (s : State) (t : ThreadId) (stack : List Frame) : State :=
  { s with thr := Function.update s.thr t { s.thr t with stack } }

/-- Push activation records onto the stack of a thread. -/
def State.push (s : State) (t : ThreadId) (frames : List Frame) : State :=
  s.setStack t (frames ++ (s.thr t).stack)

/-- User code gets a value. -/
def State.give (s : State) (v : UserVal) : State :=
  { s with nVals := s.nVals + 1, vals := Function.update s.vals s.nVals (some v) }

/-- User code gives a value away. -/
def State.take (s : State) (v : Nat) : State :=
  { s with vals := Function.update s.vals v none }

def State.act (s : State) (a : Act) : State := { s with sh := a.exec s.sh }

/-- A result reaches user code. -/
def State.deliver (s : State) : Ret → State
  | .ptr p => s.give (.handle p)
  | .prot g => s.give (.guard g)
  | _ => s

def UserVal.ptr : UserVal → Ptr
  | .handle p => p
  | .guard g => g.ptr

/-- The handle with this number, if it has the pointee type of the storage. -/
def State.handleFor (s : State) (c v : Nat) : Option Ptr :=
  match s.vals v with
  | some (.handle p) => if p.ty = s.sh.cellTy c then some p else none
  | _ => none

/-- The frames of an operation on a live storage that user code starts with an owned value
or without one.
-/
def entry (sh : Shared) (c : CellId) : Call → Option Ptr → Option (List Frame)
  | .load _, none => some [.load c sh.time .tls .enter]
  | .loadFull _, none => some [.load c sh.time .tls .enter, .loadFull c sh.time]
  | .rcu _, none => some [.load c sh.time .tls .enter, .rcu c sh.time (.loadWait sh.time)]
  | .swap _ _, some p => some [.swap c sh.time p]
  | .store _ _, some p => some [.swap c sh.time p, .storeWait c]
  | .compareAndSwap _ cur _, some p =>
      some [.load c sh.time .tls .enter, .cas c sh.time cur p (.loadWait sh.time)]
  | .revalidate _ _, some p => some [.cache c p .peek]
  | _, _ => none

/-- Start an operation on a live storage. -/
def State.start (s : State) (t : ThreadId) (c : CellId) (k : Call) : Option State :=
  if s.sh.status c = .live then (entry s.sh c k none).map (s.push t) else none

/-- Start an operation on a live storage that takes the handle `v`. -/
def State.startWith (s : State) (t : ThreadId) (c v : Nat) (k : Call) : Option State := do
  let p ← s.handleFor c v
  if s.sh.status c = .live then (entry s.sh c k (some p)).map ((s.take v).push t) else none

/-- What user code of thread `t` does. -/
def State.call (s : State) (t : ThreadId) : Call → Option State
  | .alloc addr ty =>
      if s.sh.heap addr = none ∧ addr ≠ 0 ∧ addr ≠ NONE then
        some ((s.act (.newObj addr ty)).give (.handle ⟨addr, ty, s.sh.nextId⟩))
      else none
  | .null ty => some (s.give (.handle ⟨0, ty, 0⟩))
  | .clone v => do
      let u ← s.vals v
      some ((s.act (incAct u.ptr)).give (.handle u.ptr))
  | .cloneArg =>
      match (s.thr t).stack with
      | .closure p :: _ => some ((s.act (incAct p)).give (.handle p))
      | _ => none
  | .dropVal v => do
      match ← s.vals v with
      | .handle p => some ((s.take v).push t [.dec p])
      | .guard g => some ((s.take v).push t [.guardDrop g])
  | .new v addr useFast => do
      match ← s.vals v with
      | .handle p =>
          if s.addrFree addr then some ((s.take v).act (.newCell p addr useFast)) else none
      | .guard _ => none
  | .moveCell c addr =>
      if s.sh.status c = .live ∧ s.borrowed c = false ∧ s.addrFree addr then
        some (s.act (.moveCell c addr))
      else none
  | .load c => s.start t c (.load c)
  | .loadFull c => s.start t c (.loadFull c)
  | .rcu c => s.start t c (.rcu c)
  | .store c v => s.startWith t c v (.store c v)
  | .swap c v => s.startWith t c v (.swap c v)
  | .compareAndSwap c cur v => s.startWith t c v (.compareAndSwap c cur v)
  | .revalidate c v => s.startWith t c v (.revalidate c v)
  | .guardIntoInner v => do
      match ← s.vals v with
      | .guard g => some ((s.take v).push t [.into g .plain .inc])
      | .handle _ => none
  | .guardFromInner v => do
      match ← s.vals v with
      | .handle p => some ((s.take v).give (.guard ⟨p, none, none⟩))
      | .guard _ => none
  | .intoInner c addr =>
      if s.sh.status c = .live ∧ s.borrowed c = false ∧ s.addrFree addr then
        some ((s.act (.closeCell c addr)).push t
          [.pay c (s.sh.ptr c) (s.sh.time + 1) .tls .enter, .cellInto c none])
      else none
  | .dropCell c =>
      if s.sh.status c = .live ∧ s.borrowed c = false then
        some ((s.act (.closeCell c (s.sh.cellAddr c))).push t
          [.pay c (s.sh.ptr c) (s.sh.time + 1) .tls .enter, .cellDrop c .payWait])
      else none
  | .closureRet v =>
      match (s.thr t).stack, s.vals v with
      | .closure p :: rest, some (.handle q) =>
          if q.ty = p.ty then some ((s.take v).setStack t (.ret .plain (.ptr q) :: rest))
          else none
      | _, _ => none
  | .closurePanic =>
      match (s.thr t).stack with
      | .closure _ :: rest => some (s.setStack t (.ret .plain .unwound :: rest))
      | _ => none
  | .destructorRet =>
      match (s.thr t).stack with
      | .destructor p :: rest =>
          some ((s.act (.dealloc p.addr)).setStack t (.ret .plain .unit :: rest))
      | _ => none
  | .exit =>
      match (s.thr t).stack with
      | [] =>
          if (s.thr t).tls.alive then
            some {
              s with
              thr := Function.update s.thr t
                ⟨{ (s.thr t).tls with alive := false, node := none },
                  ((s.thr t).tls.node.map fun n => Frame.cool n .reserve).toList⟩
            }
          else none
      | _ => none

/-- One step of the machine below user code: the top frame moves, or returns. -/
def State.run (cfg : Config) (s : State) (t : ThreadId) (spurious : Bool) : Option State :=
  match (s.thr t).stack with
  | [] => none
  | .ret _ v :: [] => some ((s.setStack t []).deliver v)
  | .ret _ v :: caller :: rest =>
      if caller.isUser then some ((s.setStack t (caller :: rest)).deliver v)
      else (resume s.sh caller v).map fun frames => s.setStack t (frames ++ rest)
  | fr :: rest =>
      (stepFrame cfg s.sh (s.thr t).tls spurious fr).map fun e =>
        {
          s with
          sh := e.act.exec s.sh
          thr := Function.update s.thr t ⟨e.tls, e.frames ++ rest⟩
        }

/-- Time passes with every step. -/
def State.tick (s : State) : State := { s with sh := { s.sh with time := s.sh.time + 1 } }

/-- The step function of the program. -/
def step (cfg : Config) (s : State) : Label → Option State
  | .run t spurious => if t < s.nThr then (s.run cfg t spurious).map State.tick else none
  | .call t k =>
      if t < s.nThr ∧ s.atUser t then (s.call t k).map State.tick else none

end ArcSwap
