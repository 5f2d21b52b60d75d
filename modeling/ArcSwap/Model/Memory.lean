import Mathlib.Logic.Function.Basic
import Mathlib.Tactic.Common

/-! Shared memory of the crate: the heap of reference-counted objects, the storages of the
`ArcSwapAny` instances and the global list of debt nodes. Every atomic access of the source
is one `Act`, and atomics are sequentially consistent. Node fields are kept as arrays over
the node index. Fields marked as history variables are read by no step of the program.
-/

namespace ArcSwap

abbrev NodeId := Nat
abbrev CellId := Nat

-----------------------------------------------------------------------------------------
-- Machine words of the protocol
-----------------------------------------------------------------------------------------

/-- `Debt::NONE`: the content of an empty slot. -/
def NONE : Nat := 3

/-- `IDLE`: no transaction is running on the node. -/
def IDLE : Nat := 0

def REPLACEMENT_TAG : Nat := 1
def GEN_TAG : Nat := 2

/-- `control & TAG_MASK`, on words whose two low bits are the tag. -/
def tagOf (control : Nat) : Nat := control % 4

def NODE_UNUSED : Nat := 0
def NODE_USED : Nat := 1
def NODE_COOLDOWN : Nat := 2

def DEBT_SLOT_CNT : Nat := 8

/-- The helping slot follows the fast slots, in the order `pay_all` visits them. -/
def HELPING : Nat := 8

/-- The address of the `Handover` embedded in a node. It is aligned to 4 and not null. -/
def handoverAddr (n : NodeId) : Nat := 4 * (n + 1)

/-- The node whose `Handover` has this address. -/
def handoverNode (e : Nat) : NodeId := e / 4 - 1

-----------------------------------------------------------------------------------------
-- Pointers, objects and storages
-----------------------------------------------------------------------------------------

/-- A `*const T::Base`: an address and the static pointee type. All comparisons of the
source are on `addr`. History variable: `prov` names the object the pointer was made for,
since the allocator may give the address of a destroyed object to a later one.
-/
structure Ptr where
  addr : Nat
  ty : Nat
  prov : Nat
deriving DecidableEq

/-- An allocation behind an `Arc`, with the type it was created with. -/
structure Obj where
  id : Nat
  ty : Nat
  strong : Nat
deriving DecidableEq

/-- A storage lives until its container is dropped or turned into its content. -/
inductive CellStatus
  | live
  | dropping
  | gone
deriving DecidableEq

/-- One write to a storage. From `time` on the storage holds `new`. -/
structure Commit where
  time : Nat
  op : Nat
  old : Ptr
  new : Ptr
deriving DecidableEq

/-- One successful hand-over: the pointer, and the load of `cell` that produced it. -/
structure HelpRec where
  cell : CellId
  val : Ptr
  began : Nat
  ended : Nat
  given : Nat
deriving DecidableEq

/-- Everything that several threads can reach. -/
structure Shared where
  /-- History variable: the number of steps taken so far. -/
  time : Nat
  heap : Nat → Option Obj
  nextId : Nat
  nCells : Nat
  status : CellId → CellStatus
  /-- `storage as *const _ as usize`. -/
  cellAddr : CellId → Nat
  /-- `ArcSwapAny::ptr`. -/
  ptr : CellId → Ptr
  cellTy : CellId → Nat
  /-- `Cfg::USE_FAST` of the strategy of the instance. -/
  useFast : CellId → Bool
  /-- History variable: the writes to a storage, latest first. -/
  commits : CellId → List Commit
  /-- History variable: when the object with this number was last taken out of a storage. -/
  lastOut : Nat → Nat
  nNodes : Nat
  /-- `LIST_HEAD`. -/
  head : Option NodeId
  next : NodeId → Option NodeId
  inUse : NodeId → Nat
  activeWriters : NodeId → Nat
  /-- The fast slots 0 to 7 and the helping slot 8. -/
  slot : NodeId → Nat → Nat
  control : NodeId → Nat
  activeAddr : NodeId → Nat
  /-- The content of the `Handover` embedded in the node. -/
  handover : NodeId → Ptr
  spaceOffer : NodeId → Nat
  /-- History variable: whether the node was prepended to the list, and after how many. -/
  linked : NodeId → Bool
  rank : NodeId → Nat
  nLinked : Nat
  /-- History variable: how many cooldown periods of the node have begun. -/
  epoch : NodeId → Nat
  /-- History variable: when the last owner of the node claimed it. -/
  claimedAt : NodeId → Nat
  /-- History variable: the envelope of a node, an exchange counting as done when the
  helper's compare-exchange succeeds.
  -/
  env : NodeId → Nat
  /-- History variable: the handed over pointer that the reader has not taken yet. -/
  gift : NodeId → Option Ptr
  /-- History variable: hand-overs into the transaction that was published last. -/
  helps : NodeId → List HelpRec
  /-- History variable: when the last generation was published, and how many were. -/
  txTime : NodeId → Nat
  pubs : NodeId → Nat
  /-- History variable: the load that wrote a slot last, and its pointee type. -/
  reg : NodeId → Nat → Nat
  regTy : NodeId → Nat → Nat

/-- Replace one entry of a two-dimensional array. -/
def set₂ {α : Type} (f : Nat → Nat → α) (n i : Nat) (v : α) : Nat → Nat → α :=
  fun m j => if m = n ∧ j = i then v else f m j

/-- The atomic accesses that write, and what user code does to the memory. Reads are part
of the step that uses the value.
-/
inductive Act
  | nop
  /-- `slot.0.swap(ptr)` of a load. -/
  | register (n : NodeId) (i : Nat) (p : Ptr) (load : Nat)
  /-- The successful `compare_exchange(ptr, NONE)` of `Debt::pay`. -/
  | settle (n : NodeId) (i : Nat)
  /-- `active_addr.store`. -/
  | announce (n : NodeId) (a : Nat)
  /-- `control.swap(gen)`. -/
  | publish (n : NodeId) (gen : Nat)
  /-- The successful `compare_exchange` of `Slots::help` on `who.control`. -/
  | handOver (who self : NodeId) (space : Nat) (rec : HelpRec)
  /-- `control.swap(IDLE)`. -/
  | goIdle (n : NodeId)
  /-- `space_offer.store`. -/
  | setOffer (n : NodeId) (e : Nat)
  /-- `(*my_space).0.store`. -/
  | setEnvelope (e : Nat) (p : Ptr)
  /-- `storage.swap` and the successful `storage.compare_exchange_weak`. -/
  | write (c : CellId) (op : Nat) (p : Ptr)
  /-- The memory of the container is given back. -/
  | freeCell (c : CellId)
  /-- Count updates of the object at an address, and its deallocation. -/
  | inc (a : Nat)
  | dec (a : Nat)
  | dealloc (a : Nat)
  /-- `in_use` from unused to used, and from cooldown to unused. -/
  | setUse (n : NodeId) (v : Nat)
  /-- `in_use.swap(NODE_COOLDOWN)`. -/
  | cooldown (n : NodeId)
  | enterWriter (n : NodeId)
  | leaveWriter (n : NodeId)
  /-- `Box::leak(Box::<Node>::default())` and `helping.init()`. -/
  | newNode
  /-- `node.next = head`. -/
  | setNext (n : NodeId) (head : Option NodeId)
  /-- The successful `LIST_HEAD.compare_exchange_weak`. -/
  | link (n : NodeId) (head : Option NodeId)
  /-- A new object with one handle, at an address of the allocator's choice. -/
  | newObj (a ty : Nat)
  /-- A new container, which takes over the count of `p`. -/
  | newCell (p : Ptr) (a : Nat) (useFast : Bool)
  /-- A container that nobody borrows is moved in memory. -/
  | moveCell (c : CellId) (a : Nat)
  /-- The container is owned exclusively from now on, and its pointer counts as taken out.
  -/
  | closeCell (c : CellId) (a : Nat)

/-- Change the count of the object at an address, if there is one. -/
def Shared.count (sh : Shared) (a : Nat) (f : Nat → Nat) : Nat → Option Obj :=
  Function.update sh.heap a ((sh.heap a).map fun o => { o with strong := f o.strong })

/-- The effect of one atomic access. -/
def Act.exec (sh : Shared) : Act → Shared
  | .nop => sh
  | .register n i p load =>
      {
        sh with
        slot := set₂ sh.slot n i p.addr
        reg := set₂ sh.reg n i load
        regTy := set₂ sh.regTy n i p.ty
      }
  | .settle n i => { sh with slot := set₂ sh.slot n i NONE }
  | .announce n a => { sh with activeAddr := Function.update sh.activeAddr n a }
  | .publish n gen =>
      {
        sh with
        control := Function.update sh.control n gen
        helps := Function.update sh.helps n []
        txTime := Function.update sh.txTime n sh.time
        pubs := Function.update sh.pubs n (sh.pubs n + 1)
      }
  | .handOver who self space rec =>
      {
        sh with
        control := Function.update sh.control who (space + REPLACEMENT_TAG)
        gift := Function.update sh.gift who (some rec.val)
        helps := Function.update sh.helps who (rec :: sh.helps who)
        env := Function.update (Function.update sh.env who (sh.env self)) self (sh.env who)
      }
  | .goIdle n =>
      {
        sh with
        control := Function.update sh.control n IDLE
        gift := Function.update sh.gift n none
      }
  | .setOffer n e => { sh with spaceOffer := Function.update sh.spaceOffer n e }
  | .setEnvelope e p =>
      { sh with handover := Function.update sh.handover (handoverNode e) p }
  | .write c op p =>
      {
        sh with
        ptr := Function.update sh.ptr c p
        commits := Function.update sh.commits c
          ({ time := sh.time + 1, op, old := sh.ptr c, new := p } :: sh.commits c)
        lastOut := Function.update sh.lastOut (sh.ptr c).prov (sh.time + 1)
      }
  | .freeCell c => { sh with status := Function.update sh.status c .gone }
  | .inc a => { sh with heap := sh.count a (· + 1) }
  | .dec a => { sh with heap := sh.count a (· - 1) }
  | .dealloc a => { sh with heap := Function.update sh.heap a none }
  | .setUse n v =>
      {
        sh with
        inUse := Function.update sh.inUse n v
        claimedAt :=
          if v = NODE_USED then Function.update sh.claimedAt n sh.time else sh.claimedAt
      }
  | .cooldown n =>
      {
        sh with
        inUse := Function.update sh.inUse n NODE_COOLDOWN
        epoch := Function.update sh.epoch n (sh.epoch n + 1)
      }
  | .enterWriter n =>
      { sh with activeWriters := Function.update sh.activeWriters n (sh.activeWriters n + 1) }
  | .leaveWriter n =>
      { sh with activeWriters := Function.update sh.activeWriters n (sh.activeWriters n - 1) }
  | .newNode =>
      {
        sh with
        nNodes := sh.nNodes + 1
        next := Function.update sh.next sh.nNodes none
        inUse := Function.update sh.inUse sh.nNodes NODE_USED
        activeWriters := Function.update sh.activeWriters sh.nNodes 0
        slot := Function.update sh.slot sh.nNodes fun _ => NONE
        control := Function.update sh.control sh.nNodes IDLE
        activeAddr := Function.update sh.activeAddr sh.nNodes 0
        handover := Function.update sh.handover sh.nNodes ⟨0, 0, 0⟩
        spaceOffer := Function.update sh.spaceOffer sh.nNodes (handoverAddr sh.nNodes)
        linked := Function.update sh.linked sh.nNodes false
        claimedAt := Function.update sh.claimedAt sh.nNodes sh.time
        env := Function.update sh.env sh.nNodes (handoverAddr sh.nNodes)
        gift := Function.update sh.gift sh.nNodes none
      }
  | .setNext n head => { sh with next := Function.update sh.next n head }
  | .link n head =>
      {
        sh with
        head := some n
        next := Function.update sh.next n head
        linked := Function.update sh.linked n true
        rank := Function.update sh.rank n sh.nLinked
        nLinked := sh.nLinked + 1
      }
  | .newObj a ty =>
      {
        sh with
        heap := Function.update sh.heap a (some ⟨sh.nextId, ty, 1⟩)
        nextId := sh.nextId + 1
      }
  | .newCell p a useFast =>
      {
        sh with
        nCells := sh.nCells + 1
        status := Function.update sh.status sh.nCells .live
        cellAddr := Function.update sh.cellAddr sh.nCells a
        ptr := Function.update sh.ptr sh.nCells p
        cellTy := Function.update sh.cellTy sh.nCells p.ty
        useFast := Function.update sh.useFast sh.nCells useFast
        commits := Function.update sh.commits sh.nCells []
      }
  | .moveCell c a => { sh with cellAddr := Function.update sh.cellAddr c a }
  | .closeCell c a =>
      {
        sh with
        status := Function.update sh.status c .dropping
        cellAddr := Function.update sh.cellAddr c a
        lastOut := Function.update sh.lastOut (sh.ptr c).prov (sh.time + 1)
      }

/-- The memory before the first operation of the program. -/
def Shared.init : Shared where
  time := 0
  heap := fun _ => none
  nextId := 1
  nCells := 0
  status := fun _ => .gone
  cellAddr := fun _ => 0
  ptr := fun _ => ⟨0, 0, 0⟩
  cellTy := fun _ => 0
  useFast := fun _ => true
  commits := fun _ => []
  lastOut := fun _ => 0
  nNodes := 0
  head := none
  next := fun _ => none
  inUse := fun _ => NODE_UNUSED
  activeWriters := fun _ => 0
  slot := fun _ _ => NONE
  control := fun _ => IDLE
  activeAddr := fun _ => 0
  handover := fun _ => ⟨0, 0, 0⟩
  spaceOffer := fun _ => 0
  linked := fun _ => false
  rank := fun _ => 0
  nLinked := 0
  epoch := fun _ => 0
  claimedAt := fun _ => 0
  env := fun _ => 0
  gift := fun _ => none
  helps := fun _ => []
  txTime := fun _ => 0
  pubs := fun _ => 0
  reg := fun _ _ => 0
  regTy := fun _ _ => 0

end ArcSwap
