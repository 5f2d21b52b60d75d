import ArcSwap.Proofs.NodePoolSteps
import ArcSwap.Proofs.Protocol

/-! The tokens of the debt protocol that frames and values stand for, and what every frame
satisfies as long as no generation counter wraps: it has the node it works on, and its
storage is in use.
-/

namespace ArcSwap

open Bags

-----------------------------------------------------------------------------------------
-- Tokens
-----------------------------------------------------------------------------------------

/-- The count behind a protection, which a slot may owe. -/
def Prot.token (g : Prot) : Token :=
  match g.debt with
  | none => .own g.ptr
  | some (n, i) => .debt g.ptr n i

def Ret.tokens : Spec → Ret → Tokens
  | .walked c p since, .ptr _ => {.finished c p since}
  | _, .ptr p => {.own p}
  | _, .prot g => {g.token}
  | _, _ => 0

def IntoPc.tokens (g : Prot) : IntoPc → Tokens
  | .inc => {g.token}
  | .pay => g.token ::ₘ {.own g.ptr}
  | .decWait => {.own g.ptr}

def LoadPc.tokens (c : CellId) : LoadPc → Tokens
  | .scan _ p _ => {.seen p}
  | .take n p i => {.session n (.scanned i p)}
  | .recheck n p i | .payBack n p i => .session n (.registered i p) ::ₘ {.pending p n i}
  | .publish n gen => {.session n (.announced c gen)}
  | .candidate n gen => {.session n (.published c gen)}
  | .fill n gen p => {.session n (.candidate c gen p)}
  | .confirm n gen p => .session n (.filled c gen p) ::ₘ {.pending p n HELPING}
  | .ownInc n p => .session n (.ended p) ::ₘ {.debt p n HELPING}
  | .ownPay n p => .session n (.ended p) ::ₘ .debt p n HELPING ::ₘ {.own p}
  | .envelope n p e r | .restore n p e r =>
      .session n (.helped c p e r) ::ₘ .own r ::ₘ {.pending p n HELPING}
  | .unused n p r => .session n (.ended p) ::ₘ .pending p n HELPING ::ₘ {.own r}
  | .decWait g | .coolWait g => {g.token}
  | _ => 0

/-- A walk and, once it has been made, the count that pays the next debt. -/
def PayPc.tokens (c : CellId) (p : Ptr) (since : Nat) : PayPc → Tokens
  | .enter | .nodeWait | .inc => {.walk c p since .start}
  | .head => .walk c p since .start ::ₘ {.own p}
  | .reserve n | .help n _ => .walk c p since (.node n) ::ₘ {.own p}
  | .activeLoad h => .walk c p since (.active h) ::ₘ {.own p}
  | .recheck h => .walk c p since (.differs h) ::ₘ {.own p}
  | .replaceWait h _ => .walk c p since (.agrees h) ::ₘ {.own p}
  | .theirSpace h r => .walk c p since (.agrees h) ::ₘ .own r.ptr ::ₘ {.own p}
  | .mySpace h r their => .walk c p since (.space h their) ::ₘ .own r.ptr ::ₘ {.own p}
  | .fillSpace h r their mine =>
      .walk c p since (.space h their) ::ₘ .session h.self (.envelope mine)
        ::ₘ .own r.ptr ::ₘ {.own p}
  | .offer h r their mine =>
      .walk c p since (.space h their) ::ₘ .session h.self (.offering mine r)
        ::ₘ .own r.ptr ::ₘ {.own p}
  | .exchange h their =>
      .walk c p since (.handed h their) ::ₘ .session h.self (.exchanging their) ::ₘ {.own p}
  | .lostWait h => .walk c p since (.lost h) ::ₘ {.own p}
  | .slots n _ j => .walk c p since (.slots n j) ::ₘ {.own p}
  | .bump n _ j => {.walk c p since (.slots n (j + 1))}
  | .leave n _ => .walk c p since (.slots n (HELPING + 1)) ::ₘ {.own p}
  | .dropVal => .walk c p since .done ::ₘ {.own p}
  | .decWait | .coolWait => {.finished c p since}
  | .unwind _ | .abandon _ _ => 0

def CasPc.tokens (new : Ptr) : CasPc → Tokens
  | .loadWait _ | .retryWait => {.own new}
  | .exchange old => old.token ::ₘ {.own new}
  | .payWait old | .decWait old | .rejectWait old => {old.token}
  | .unwind => 0

def RcuPc.tokens : RcuPc → Tokens
  | .loadWait _ | .unwindWait => 0
  | .closureWait cur _ | .casWait cur _ _ | .intoWait cur _ _ => {cur.token}
  | .doneWait r _ => {.own r}
  | .againWait prev _ => {prev.token}

def CachePc.tokens (p : Ptr) : CachePc → Tokens
  | .peek | .loadWait _ => {.own p}
  | .decWait r => {.own r}

def DropPc.tokens (c : CellId) : DropPc → Tokens
  | .payWait => {.closing c}
  | .decWait | .free => {.closed c}

def Frame.tokens : Frame → Tokens
  | .ret spec v => v.tokens spec
  | .destructor p => {.dying p}
  | .dec p => {.own p}
  | .into g _ pc => pc.tokens g
  | .guardDrop g => {g.token}
  | .load c _ _ pc => pc.tokens c
  | .pay c p since _ pc => pc.tokens c p since
  | .swap _ _ new => {.own new}
  | .cas _ _ _ new pc => pc.tokens new
  | .rcu _ _ pc => pc.tokens
  | .cache _ p pc => pc.tokens p
  | .cellDrop c pc => pc.tokens c
  | .cellInto c none => {.closing c}
  | .cellInto c (some p) => .closed c ::ₘ {.own p}
  | _ => 0

def UserVal.token : UserVal → Token
  | .handle p => .own p
  | .guard g => g.token

def tokenShare : Share Tokens where
  frame := Frame.tokens
  tls := fun _ => 0
  val := fun u => {u.token}

/-- All tokens of a state. -/
def State.tokens (s : State) : Tokens :=
  s.shares tokenShare

-----------------------------------------------------------------------------------------
-- Calm frames
-----------------------------------------------------------------------------------------

/-- The node that a load works on. -/
def LoadPc.node : LoadPc → Option NodeId
  | .scan n _ _ | .take n _ _ | .recheck n _ _ | .payBack n _ _ | .publish n _
  | .candidate n _ | .fill n _ _ | .confirm n _ _ | .ownInc n _ | .ownPay n _
  | .envelope n _ _ _ | .restore n _ _ _ | .unused n _ _ => some n
  | _ => none

/-- What a load knows about the node of its `LocalNode`. -/
def LoadPc.Calm (node : Option NodeId) : LoadPc → Prop
  | .enter | .nodeWait | .coolWait _ => True
  | .discardWait _ _ | .unwind => False
  | .first | .announce | .decWait _ => node.isSome = true
  | pc => node = pc.node

/-- What a walk knows about the node of its `LocalNode`. -/
def PayPc.Calm (node : Option NodeId) : PayPc → Prop
  | .enter | .nodeWait | .dropVal | .decWait | .coolWait => True
  | .unwind _ | .abandon _ _ => False
  | .inc | .head | .reserve _ | .help _ _ | .leave _ _ => node.isSome = true
  | .slots _ _ j | .bump _ _ j => node.isSome = true ∧ j ≤ HELPING
  | .activeLoad h | .recheck h | .replaceWait h _ | .theirSpace h _ | .mySpace h _ _
  | .fillSpace h _ _ _ | .offer h _ _ _ | .exchange h _ | .lostWait h => node = some h.self

def CasPc.Calm (cur : Nat) : CasPc → Prop
  | .unwind => False
  | .exchange old => old.ptr.addr = cur
  | _ => True

/-- The storage in use that the frame borrows. -/
def Frame.uses : Frame → Option CellId
  | .load c _ _ _ | .loadFull c _ | .swap c _ _ | .swapWait c | .storeWait c
  | .cas c _ _ _ _ | .rcu c _ _ | .cache c _ _ => some c
  | _ => none

/-- A walk gives back the pointer it was started with. -/
def Spec.Fits : Spec → Ret → Prop
  | .walked _ p _, v => v = .ptr p
  | _, _ => True

theorem Spec.fits {spec : Spec} (other : ∀ c p since, spec ≠ .walked c p since) (v : Ret)
    : spec.Fits v := by
  cases spec with
  | walked c p since => exact absurd rfl (other c p since)
  | _ => trivial

/-- The frame is not in a panic and has its node. -/
def Frame.settledOn (tls : Tls) : Frame → Prop
  | .panicked _ => False
  | .ret spec v => v ≠ .unwound ∧ spec.Fits v
  | .cas _ _ cur _ pc => pc.Calm cur
  | .into _ spec _ => ∀ c p since, spec ≠ .walked c p since
  | .load _ _ loc pc => pc.Calm (loc.node tls)
  | .pay _ _ _ loc pc => pc.Calm (loc.node tls)
  | _ => True

structure Frame.Calm (sh : Shared) (tls : Tls) (fr : Frame) : Prop where
  settled : fr.settledOn tls
  live : ∀ c, fr.uses = some c → sh.status c = .live

/-- A panic of the closure of `rcu` reaches only what waits for it, and user code. -/
def bears : List Frame → Prop
  | [] => True
  | fr :: _ => fr.isUser = true ∨ fr.accepts (.ptr .plain) ∨ fr.accepts .unit

structure Thread.Calm (sh : Shared) (th : Thread) : Prop where
  frames
    : (∀ fr ∈ th.stack, fr.Calm sh th.tls)
      ∨ ∃ spec rest, th.stack = .ret spec .unwound :: rest ∧ bears rest
        ∧ ∀ fr ∈ rest, fr.Calm sh th.tls
  aligned : th.tls.generation % 4 = 0

/-- A thread that gets its first node keeps what its other frames know. -/
theorem Frame.settledOn.mono {tls tls' : Tls} {fr : Frame} (settled : fr.settledOn tls)
    (node : tls'.node = tls.node ∨ tls.node = none)
    : fr.settledOn tls' := by
  rcases node with same | bare
  · have loc (l : Loc) : l.node tls' = l.node tls := by
      cases l with
      | tls => exact same
      | tmp => rfl
    cases fr with
    | load c began l pc => simpa [settledOn, loc l] using settled
    | pay c p since l pc => simpa [settledOn, loc l] using settled
    | _ => exact settled
  · have bare : Loc.tls.node tls = none := bare
    cases fr with
    | load c began l pc =>
        cases l with
        | tmp => exact settled
        | tls =>
            simp only [settledOn, bare] at settled ⊢
            cases pc <;> first | exact settled | simp [LoadPc.Calm, LoadPc.node] at settled
    | pay c p since l pc =>
        cases l with
        | tmp => exact settled
        | tls =>
            simp only [settledOn, bare] at settled ⊢
            cases pc <;> first | exact settled | simp [PayPc.Calm] at settled
    | _ => exact settled

end ArcSwap
