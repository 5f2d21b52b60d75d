import ArcSwap.Library.Bags
import ArcSwap.Model.Step
import Mathlib.Data.Multiset.AddSub

/-! The debt protocol without threads. The parties are sessions, each on the node it owns,
and writers that walk over the nodes; counted pointers and debts are tokens. One step of the
program exchanges some tokens for others. Runs in which a generation counter wraps or a
debug assertion fails are not steps of the protocol.
-/

namespace ArcSwap

/-- What the owner of a node is doing with it. -/
inductive Session
  /-- `fast::Slots::get_debt` has seen that slot `i`, which is for `p`, is empty. -/
  | scanned (i : Nat) (p : Ptr)
  /-- `attempt` has written `p` to slot `i`. -/
  | registered (i : Nat) (p : Ptr)
  /-- `active_addr` names the storage `c`. -/
  | announced (c : CellId) (counter : Nat)
  /-- The generation `gen` is published, the candidate not read yet. -/
  | published (c : CellId) (gen : Nat)
  | candidate (c : CellId) (gen : Nat) (p : Ptr)
  /-- The candidate is in the helping slot. -/
  | filled (c : CellId) (gen : Nat) (p : Ptr)
  /-- The transaction has ended, `p` may still be in the helping slot. -/
  | ended (p : Ptr)
  /-- The transaction was ended by a helper that has put `r` into the envelope `e`. -/
  | helped (c : CellId) (p : Ptr) (e : Nat) (r : Ptr)
  /-- A helper that knows its envelope. -/
  | envelope (mine : Nat)
  /-- A helper that has put the replacement `r` into its envelope. -/
  | offering (mine : Nat) (r : Replacement)
  /-- A helper that has given its envelope away and gets `their`. -/
  | exchanging (their : Nat)

/-- Where a writer is in its walk. -/
inductive Pos
  | start
  | node (n : NodeId)
  | active (h : Helping)
  | differs (h : Helping)
  | agrees (h : Helping)
  | space (h : Helping) (their : Nat)
  | handed (h : Helping) (their : Nat)
  | lost (h : Helping)
  /-- The slots of `n` before the `j`-th one have been visited. -/
  | slots (n : NodeId) (j : Nat)
  | done

inductive Token
  /-- A count of the object at `p`. -/
  | own (p : Ptr)
  /-- A confirmed protection of `p`, whose count the slot may owe. -/
  | debt (p : Ptr) (n : NodeId) (i : Nat)
  /-- A protection of `p` that is registered in the slot and not confirmed. -/
  | pending (p : Ptr) (n : NodeId) (i : Nat)
  /-- The pointer `p` has been read from a storage. -/
  | seen (p : Ptr)
  /-- The destructor of the object at `p` is running. -/
  | dying (p : Ptr)
  | session (n : NodeId) (ses : Session)
  /-- A walk for the pointer `p` that was taken out of `c` at `since`, with its count. -/
  | walk (c : CellId) (p : Ptr) (since : Nat) (pos : Pos)
  /-- The walk is over and its caller not told yet. -/
  | finished (c : CellId) (p : Ptr) (since : Nat)
  /-- The exclusive owner of `c` waits for its walk, or has been told that it is over. -/
  | closing (c : CellId)
  | closed (c : CellId)

abbrev Tokens := Multiset Token

/-- The storage that the token needs. -/
def Session.cell : Session → Option CellId
  | .announced c _ | .published c _ | .candidate c _ _ | .filled c _ _ => some c
  | _ => none

def Token.cell : Token → Option CellId
  | .session _ ses => ses.cell
  | .walk c _ _ _ | .finished c _ _ | .closing c | .closed c => some c
  | _ => none

/-- Nobody is in a session on the node. -/
def Idle (n : NodeId) (r : Tokens) : Prop :=
  ∀ ses, .session n ses ∉ r

/-- Nobody needs the storage. -/
def Unused (c : CellId) (r : Tokens) : Prop :=
  ∀ tok ∈ r, tok.cell ≠ some c

/-- Somebody has a count of the very pointer `p`, or is protected by a debt. -/
def Kept (p : Ptr) (r : Tokens) : Prop :=
  .own p ∈ r ∨ (∃ n i, .debt p n i ∈ r) ∨ ∃ c since pos, .walk c p since pos ∈ r

/-- No container occupies the address. -/
def Shared.AddrFree (sh : Shared) (a : Nat) : Prop :=
  ∀ c, sh.status c ≠ .gone → sh.cellAddr c ≠ a

/-- The accesses that do not concern the protocol. -/
def Act.protocolQuiet : Act → Prop
  | .nop | .setUse _ _ | .cooldown _ | .enterWriter _ | .leaveWriter _ | .setNext _ _ => True
  | _ => False

/-- The position after the next node of the list has been read. -/
def Pos.at : Option NodeId → Pos
  | none => .done
  | some n => .node n

/-- Where the loop of `Slots::help` goes with a valid control word. -/
inductive Dispatched (h : Helping) : Pos → Prop
  | active (gen : tagOf h.control = GEN_TAG) : Dispatched h (.active h)
  | slots (other : tagOf h.control = REPLACEMENT_TAG ∨ h.control = IDLE)
    : Dispatched h (.slots h.who 0)

/-- The state of the loop after the control word was read once more. -/
def Helping.again (h : Helping) (sh : Shared) : Helping :=
  { h with control := sh.control h.who, seen := sh.time, pass := h.pass + 1 }

/-- The steps of the protocol. The tokens `r` are not involved. -/
inductive ProtoStep (sh : Shared) (r : Tokens) : Tokens → Act → Tokens → Prop
  | quiet {act} (quiet : act.protocolQuiet) : ProtoStep sh r r act r
  | newNode : ProtoStep sh r r .newNode r
  | link {n head} (unlinked : sh.linked n = false) (bound : n < sh.nNodes)
    : ProtoStep sh r r (.link n head) r
  -- objects and counts
  | alloc {a ty} (free : sh.heap a = none) (real : a ≠ 0) (word : a ≠ NONE)
    : ProtoStep sh r r (.newObj a ty) (.own ⟨a, ty, sh.nextId⟩ ::ₘ r)
  | null {ty} : ProtoStep sh r r .nop (.own ⟨0, ty, 0⟩ ::ₘ r)
  | inc {p} (kept : Kept p r) : ProtoStep sh r r (incAct p) (.own p ::ₘ r)
  | decNull {p} (null : p.addr = 0) : ProtoStep sh r (.own p ::ₘ r) .nop r
  | decLast {p} (real : p.addr ≠ 0) (one : (sh.heap p.addr).map Obj.strong = some 1)
    : ProtoStep sh r (.own p ::ₘ r) (.dec p.addr) (.dying p ::ₘ r)
  | decMore {p} (real : p.addr ≠ 0) (other : (sh.heap p.addr).map Obj.strong ≠ some 1)
    : ProtoStep sh r (.own p ::ₘ r) (.dec p.addr) r
  | dealloc {p} : ProtoStep sh r (.dying p ::ₘ r) (.dealloc p.addr) r
  -- containers
  | newCell {p a useFast} (free : sh.AddrFree a)
    : ProtoStep sh r (.own p ::ₘ r) (.newCell p a useFast) r
  | moveCell {c a} (live : sh.status c = .live) (unused : Unused c r) (free : sh.AddrFree a)
    : ProtoStep sh r r (.moveCell c a) r
  | closeCell {c a} (live : sh.status c = .live) (unused : Unused c r)
    (free : a = sh.cellAddr c ∨ sh.AddrFree a)
    : ProtoStep sh r r (.closeCell c a)
        (.walk c (sh.ptr c) (sh.time + 1) .start ::ₘ .closing c ::ₘ r)
  | freeCell {c} : ProtoStep sh r (.closed c ::ₘ r) (.freeCell c) r
  | write {c op new p} (live : sh.status c = .live) (same : p.addr = (sh.ptr c).addr)
    (taken : p = sh.ptr c ∨ Kept p r)
    : ProtoStep sh r (.own new ::ₘ r) (.write c op new)
        (.walk c p (sh.time + 1) .start ::ₘ r)
  | finish {c p since}
    : ProtoStep sh r (.walk c p since .done ::ₘ r) .nop (.finished c p since ::ₘ r)
  | told {c p since} (live : sh.status c = .live)
    : ProtoStep sh r (.finished c p since ::ₘ r) .nop (.own p ::ₘ r)
  | toldClosing {c p since}
    : ProtoStep sh r (.finished c p since ::ₘ .closing c ::ₘ r) .nop
      (.closed c ::ₘ .own p ::ₘ r)
  -- HybridProtection::attempt
  | first {c} (live : sh.status c = .live) : ProtoStep sh r r .nop (.seen (sh.ptr c) ::ₘ r)
  | scan {n i p} (linked : sh.linked n = true) (idle : Idle n r) (fast : i < DEBT_SLOT_CNT)
    (empty : sh.slot n i = NONE)
    : ProtoStep sh r (.seen p ::ₘ r) .nop (.session n (.scanned i p) ::ₘ r)
  | scanFull {p} : ProtoStep sh r (.seen p ::ₘ r) .nop r
  | register {n i p load}
    : ProtoStep sh r (.session n (.scanned i p) ::ₘ r) (.register n i p load)
        (.session n (.registered i p) ::ₘ .pending p n i ::ₘ r)
  | confirmFast {n i p c} (live : sh.status c = .live) (same : p.addr = (sh.ptr c).addr)
    : ProtoStep sh r (.session n (.registered i p) ::ₘ .pending p n i ::ₘ r) .nop
        (.debt (sh.ptr c) n i ::ₘ r)
  | payBack {n i p} (there : sh.slot n i = p.addr)
    : ProtoStep sh r (.session n (.registered i p) ::ₘ .pending p n i ::ₘ r) (.settle n i) r
  | adopt {n i p} (other : sh.slot n i ≠ p.addr)
    : ProtoStep sh r (.session n (.registered i p) ::ₘ .pending p n i ::ₘ r) .nop
        (.own (sh.rebind p) ::ₘ r)
  -- HybridProtection::fallback
  | announce {n c counter} (linked : sh.linked n = true) (idle : Idle n r)
    (live : sh.status c = .live) (aligned : counter % 4 = 0) (fresh : counter ≠ 0)
    : ProtoStep sh r r (.announce n (sh.cellAddr c)) (.session n (.announced c counter) ::ₘ r)
  | publish {n c counter}
    : ProtoStep sh r (.session n (.announced c counter) ::ₘ r)
        (.publish n (counter + GEN_TAG)) (.session n (.published c (counter + GEN_TAG)) ::ₘ r)
  | candidate {n c gen}
    : ProtoStep sh r (.session n (.published c gen) ::ₘ r) .nop
        (.session n (.candidate c gen (sh.ptr c)) ::ₘ r)
  | fill {n c gen p load}
    : ProtoStep sh r (.session n (.candidate c gen p) ::ₘ r) (.register n HELPING p load)
        (.session n (.filled c gen p) ::ₘ .pending p n HELPING ::ₘ r)
  | unhelped {n c gen p} (same : sh.control n = gen)
    : ProtoStep sh r (.session n (.filled c gen p) ::ₘ .pending p n HELPING ::ₘ r) (.goIdle n)
        (.session n (.ended p) ::ₘ .debt p n HELPING ::ₘ r)
  | helped {n c gen p e g} (other : sh.control n ≠ gen)
    (envelope : e = sh.control n - tagOf (sh.control n)) (gift : g = (sh.gift n).getD ⟨0, 0, 0⟩)
    : ProtoStep sh r (.session n (.filled c gen p) ::ₘ r) (.goIdle n)
        (.session n (.helped c p e g) ::ₘ .own g ::ₘ r)
  | readEnvelope {n c p e g g'} (same : g'.addr = (sh.handover (handoverNode e)).addr)
    (prov : g'.prov = (sh.handover (handoverNode e)).prov)
    : ProtoStep sh r (.session n (.helped c p e g) ::ₘ .own g ::ₘ r) .nop
        (.session n (.helped c p e g') ::ₘ .own g' ::ₘ r)
  | restore {n c p e g}
    : ProtoStep sh r (.session n (.helped c p e g) ::ₘ r) (.setOffer n e)
        (.session n (.ended p) ::ₘ r)
  | ownPaid {n p} (there : sh.slot n HELPING = p.addr)
    : ProtoStep sh r (.session n (.ended p) ::ₘ .debt p n HELPING ::ₘ r) (.settle n HELPING) r
  | ownWasPaid {n p} (other : sh.slot n HELPING ≠ p.addr)
    : ProtoStep sh r (.session n (.ended p) ::ₘ .debt p n HELPING ::ₘ r) .nop (.own p ::ₘ r)
  | unusedPaid {n p} (there : sh.slot n HELPING = p.addr)
    : ProtoStep sh r (.session n (.ended p) ::ₘ .pending p n HELPING ::ₘ r)
        (.settle n HELPING) r
  | unusedWasPaid {n p} (other : sh.slot n HELPING ≠ p.addr)
    : ProtoStep sh r (.session n (.ended p) ::ₘ .pending p n HELPING ::ₘ r) .nop
        (.own (sh.rebind p) ::ₘ r)
  -- guards
  | paid {p n i} (there : sh.slot n i = p.addr)
    : ProtoStep sh r (.debt p n i ::ₘ r) (.settle n i) r
  | wasPaid {p n i} (other : sh.slot n i ≠ p.addr)
    : ProtoStep sh r (.debt p n i ::ₘ r) .nop (.own p ::ₘ r)
  -- Debt::pay_all
  | head {c p since}
    : ProtoStep sh r (.walk c p since .start ::ₘ r) .nop (.walk c p since (.at sh.head) ::ₘ r)
  | settle {c p since n j} (there : sh.slot n j = p.addr)
    : ProtoStep sh r (.walk c p since (.slots n j) ::ₘ .own p ::ₘ r) (.settle n j)
        (.walk c p since (.slots n (j + 1)) ::ₘ r)
  | skip {c p since n j} (other : sh.slot n j ≠ p.addr)
    : ProtoStep sh r (.walk c p since (.slots n j) ::ₘ r) .nop
        (.walk c p since (.slots n (j + 1)) ::ₘ r)
  | leave {c p since n j} (all : HELPING < j)
    : ProtoStep sh r (.walk c p since (.slots n j) ::ₘ r) (.leaveWriter n)
        (.walk c p since (.at (sh.next n)) ::ₘ r)
  -- Slots::help
  | help {c p since n h pos} (who : h.who = n) (control : h.control = sh.control n)
    (seen : h.seen = sh.time) (entered : h.entered = sh.time)
    (self : sh.linked h.self = true) (idle : Idle h.self r) (dispatch : Dispatched h pos)
    : ProtoStep sh r (.walk c p since (.node n) ::ₘ r) .nop (.walk c p since pos ::ₘ r)
  | agrees {c p since h} (same : sh.activeAddr h.who = sh.cellAddr c)
    : ProtoStep sh r (.walk c p since (.active h) ::ₘ r) .nop
        (.walk c p since (.agrees h) ::ₘ r)
  | differs {c p since h} (other : sh.activeAddr h.who ≠ sh.cellAddr c)
    : ProtoStep sh r (.walk c p since (.active h) ::ₘ r) .nop
        (.walk c p since (.differs h) ::ₘ r)
  | unchanged {c p since h} (same : sh.control h.who = h.control)
    : ProtoStep sh r (.walk c p since (.differs h) ::ₘ r) .nop
        (.walk c p since (.slots h.who 0) ::ₘ r)
  | again {c p since h pos} (other : sh.control h.who ≠ h.control)
    (dispatch : Dispatched (h.again sh) pos)
    : ProtoStep sh r (.walk c p since (.differs h) ::ₘ r) .nop (.walk c p since pos ::ₘ r)
  | theirSpace {c p since h}
    : ProtoStep sh r (.walk c p since (.agrees h) ::ₘ r) .nop
        (.walk c p since (.space h (sh.spaceOffer h.who)) ::ₘ r)
  | mySpace {c p since h their} (idle : Idle h.self r)
    : ProtoStep sh r (.walk c p since (.space h their) ::ₘ r) .nop
        (.walk c p since (.space h their)
          ::ₘ .session h.self (.envelope (sh.spaceOffer h.self)) ::ₘ r)
  | fillSpace {n mine g} (kept : .own g.ptr ∈ r)
    : ProtoStep sh r (.session n (.envelope mine) ::ₘ r) (.setEnvelope mine g.ptr)
        (.session n (.offering mine g) ::ₘ r)
  | handOver {c p since h their mine g} (same : sh.control h.who = h.control)
    : ProtoStep sh r
        (.walk c p since (.space h their)
          ::ₘ .session h.self (.offering mine g) ::ₘ .own g.ptr ::ₘ r)
        (.handOver h.who h.self mine ⟨c, g.ptr, g.began, g.ended, sh.time⟩)
        (.walk c p since (.handed h their) ::ₘ .session h.self (.exchanging their) ::ₘ r)
  | lose {c p since h their mine g} (other : sh.control h.who ≠ h.control)
    : ProtoStep sh r
        (.walk c p since (.space h their) ::ₘ .session h.self (.offering mine g) ::ₘ r) .nop
        (.walk c p since (.lost (h.again sh)) ::ₘ r)
  | retry {c p since h pos} (dispatch : Dispatched h pos)
    : ProtoStep sh r (.walk c p since (.lost h) ::ₘ r) .nop (.walk c p since pos ::ₘ r)
  | exchange {c p since h their}
    : ProtoStep sh r
        (.walk c p since (.handed h their) ::ₘ .session h.self (.exchanging their) ::ₘ r)
        (.setOffer h.self their) (.walk c p since (.slots h.who 0) ::ₘ r)

end ArcSwap
