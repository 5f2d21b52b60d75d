import ArcSwap.Library.GuardedRuns
import ArcSwap.Proofs.ProtocolSteps

/-! Runs in which no generation counter wraps. They do not panic, every step is a step of the
debt protocol, and the invariants of its transactions hold throughout.
-/

namespace ArcSwap

open Bags

-----------------------------------------------------------------------------------------
-- One thread
-----------------------------------------------------------------------------------------

theorem FrameStep.node {cfg sh tls fr act tls' frames}
    (step : FrameStep cfg sh tls fr act tls' frames) (knows : fr.knows tls)
    (fresh : ∀ c began loc n, fr ≠ .load c began loc (.publish n 0))
    : tls'.node = tls.node ∨ tls.node = none := by
  cases step with
  | @get tmp pc _ _ _ step =>
      cases step with
      | claim | link =>
          cases tmp
          · exact .inr knows
          · exact .inl rfl
      | _ => exact .inl rfl
  | load step =>
      cases step with
      | take | takePanic => exact .inl (Loc.setOffset_node _ _ _)
      | announce | announcePanic => exact .inl (Loc.setGeneration_node _ _ _)
      | publishWrapped => exact absurd rfl (fresh _ _ _ _)
      | _ => exact .inl rfl
  | _ => exact .inl rfl

theorem FrameStep.aligned {cfg sh tls fr act tls' frames}
    (step : FrameStep cfg sh tls fr act tls' frames) (aligned : tls.generation % 4 = 0)
    : tls'.generation % 4 = 0 := by
  cases step with
  | @get tmp pc _ _ _ step => cases step <;> first | exact aligned | (cases tmp <;> exact aligned)
  | @load c began loc _ _ _ _ step =>
      have next := nextGeneration_aligned cfg aligned
      cases step with
      | take | takePanic => cases loc <;> exact aligned
      | announce _ same | announcePanic _ same =>
          subst same
          cases loc
          · exact next
          · exact aligned
      | _ => exact aligned
  | _ => exact aligned

/-- Who waits for a value or for an end can bear a panic of a closure. -/
theorem bears_of_fits {rest a} (fit : fits rest a) (kind : a = .ptr .plain ∨ a = .unit)
    : bears rest := by
  cases rest with
  | nil => trivial
  | cons fr rest =>
      rcases kind with rfl | rfl
      · exact .inr (.inl fit)
      · exact .inr (.inr fit)

/-- A thread whose top frames are replaced stays calm. -/
theorem Thread.Calm.replace {sh tls tls' rest} {new : List Frame}
    (below : ∀ fr ∈ rest, fr.Calm sh tls) (node : tls'.node = tls.node ∨ tls.node = none)
    (calm : ∀ fr ∈ new, fr.Calm sh tls') (aligned : tls'.generation % 4 = 0)
    : Thread.Calm sh ⟨tls', new ++ rest⟩ := by
  refine ⟨.inl fun fr inside => ?_, aligned⟩
  rcases List.mem_append.mp inside with inside | inside
  · exact calm fr inside
  · have calm := below fr inside
    exact ⟨calm.settled.mono node, calm.live⟩

/-- The frames of a thread that is not unwinding. -/
theorem Thread.Calm.all {sh tls fr rest} (calm : Thread.Calm sh ⟨tls, fr :: rest⟩)
    (other : ∀ spec, fr ≠ .ret spec .unwound)
    : fr.Calm sh tls ∧ ∀ fr' ∈ rest, fr'.Calm sh tls := by
  rcases calm.frames with all | ⟨spec, rest', eq, _⟩
  · exact List.forall_mem_cons.mp all
  · cases eq
    exact absurd rfl (other spec)

/-- The frames below a result. -/
theorem Thread.Calm.below {sh tls spec v rest}
    (calm : Thread.Calm sh ⟨tls, .ret spec v :: rest⟩)
    : (∀ fr ∈ rest, fr.Calm sh tls) ∧ (v = .unwound → bears rest)
      ∧ (v ≠ .unwound → spec.Fits v) := by
  rcases calm.frames with all | ⟨spec, rest', eq, bearing, all⟩
  · obtain ⟨top, below⟩ := List.forall_mem_cons.mp all
    obtain ⟨other, fits⟩ : v ≠ .unwound ∧ spec.Fits v := top.settled
    exact ⟨below, fun unwound => absurd unwound other, fun _ => fits⟩
  · cases eq
    exact ⟨all, fun _ => bearing, fun other => absurd rfl other⟩

/-- The frames below user code that makes a call. -/
theorem CallStep.below {s tls rest δ} (step : CallStep s tls rest δ)
    (user : δ.old = [] → belowUser rest) (calm : Thread.Calm s.sh ⟨tls, δ.old ++ rest⟩)
    : ∀ fr ∈ rest, fr.Calm s.sh tls := by
  rcases calm.frames with all | ⟨spec, rest', eq, _⟩
  · exact fun fr inside => all fr (List.mem_append_right _ inside)
  · exfalso
    have top {fr : Frame} (user : fr.isUser = true) (eq : fr :: rest = .ret spec .unwound :: rest')
        : False := by
      cases eq
      cases user
    cases step with
    | closureRet | closurePanic | destructorRet => exact top rfl eq
    | _ =>
        have user := user rfl
        rw [show rest = .ret spec .unwound :: rest' from eq] at user
        cases user

theorem CallStep.tls {s tls rest δ} (step : CallStep s tls rest δ)
    : (δ.tls = tls ∨ rest = []) ∧ δ.tls.generation = tls.generation := by
  cases step with
  | exit below => exact ⟨.inr below, rfl⟩
  | _ => exact ⟨.inl rfl, rfl⟩

/-- Every step of the program is a step of the protocol and leaves its thread calm. -/
theorem Move.proto {cfg s tls rest δ kept} (move : Move cfg s tls rest δ)
    (ok : Thread.Ok ⟨tls, δ.old ++ rest⟩) (calm : Thread.Calm s.sh ⟨tls, δ.old ++ rest⟩)
    (ctx
      : Context s.sh tls δ.old (tokenShare.entry (δ.taken.map Prod.snd) + kept))
    (noWrap : ∀ fr, δ.old = [fr] → fr.noWrap cfg tls)
    (keeps : ∀ v u, s.vals v = some u → δ.taken = none → u.token ∈ kept)
    (arg : ∀ p, rest.head? = some (.closure p) → Kept p kept)
    (free : ∀ a, s.addrFree a = true → s.sh.AddrFree a)
    (unused : ∀ c, s.borrowed c = false → δ.old = [] → δ.taken = none → Unused c kept)
    : ProtoMove s.sh
        (listed Frame.tokens δ.old + (tokenShare.entry (δ.taken.map Prod.snd) + kept)) δ.act
        (listed Frame.tokens δ.new + (tokenShare.entry δ.given + kept))
      ∧ Thread.Calm s.sh ⟨δ.tls, δ.new ++ rest⟩ := by
  have none : tokenShare.entry Option.none = 0 := rfl
  cases move with
  | @frame fr act tls' frames step =>
      obtain ⟨top, below⟩ := calm.all (by cases step <;> simp)
      have kind
          : tokenShare.entry (Option.none.map (Prod.snd (α := Nat))) + kept = kept := zero_add _
      rw [kind] at ctx
      obtain ⟨proto, frames⟩ := step.proto ctx top calm.aligned (noWrap _ rfl)
      refine ⟨by simpa [none] using proto, ?_⟩
      refine .replace below (step.node (ok.knows _ _ rfl) ?_) frames (step.aligned calm.aligned)
      rintro c began loc n rfl
      obtain ⟨_, _, _, _, fresh⟩ : (Session.announced c 0).Ok s.sh n :=
        ctx.session (by simp [Frame.tokens, LoadPc.tokens])
      exact fresh rfl
  | @resume spec v caller frames waits step =>
      have kind
          : tokenShare.entry (Option.none.map (Prod.snd (α := Nat))) + kept = kept := zero_add _
      rw [kind] at ctx
      obtain ⟨all, bearing, fits⟩ := calm.below
      obtain ⟨top, below⟩ := List.forall_mem_cons.mp all
      obtain ⟨fit, fit', _⟩ := ok.linked
      have bears (unwound : v = .unwound) : caller.accepts (.ptr .plain) ∨ caller.accepts .unit :=
        (bearing unwound).resolve_left (by simp [waits])
      by_cases unwinds : ∃ s, frames = [.ret s .unwound]
      · obtain ⟨r, eq⟩ := unwinds
        obtain ⟨nothing, kind⟩ : v.tokens spec + caller.tokens = 0
            ∧ (caller.answer = .ptr .plain ∨ caller.answer = .unit) :=
          step.unwinds eq top bears
        subst eq
        refine ⟨.same trivial ?_,
          .inr ⟨r, rest, rfl, bears_of_fits fit' kind, below⟩, calm.aligned⟩
        have old : listed Frame.tokens [.ret spec v, caller] = 0 := by
          rw [← nothing]
          exact congrArg _ (add_zero _)
        have new : listed Frame.tokens [.ret r .unwound] = 0 := by cases r <;> rfl
        rw [old, new]
        rfl
      · obtain ⟨proto, frames⟩ :=
          step.proto fit (fun s eq => unwinds ⟨s, eq⟩) bears fits ctx
          top (ok.knows _ _ rfl)
        refine ⟨?_, .replace below (.inl rfl) frames calm.aligned⟩
        simpa [none, Frame.tokens] using proto
  | @deliver spec v below =>
      refine ⟨.same trivial ?_, .replace calm.below.1 (.inl rfl) (by simp) calm.aligned⟩
      have fine := ok.linked.1.toUser below
      have result : tokenShare.entry v.val = v.tokens spec := by
        cases v <;> cases spec <;> first | rfl | cases fine
      simp [result, none, Frame.tokens]
  | call user step =>
      obtain ⟨proto, frames⟩ := step.proto keeps arg free unused
      obtain ⟨tlsEq, generation⟩ := step.tls
      have below := step.below user calm
      refine ⟨proto, ?_⟩
      have aligned : δ.tls.generation % 4 = 0 := generation ▸ calm.aligned
      have below : ∀ fr ∈ rest, fr.Calm s.sh δ.tls := by
        rcases tlsEq with same | empty
        · exact same ▸ below
        · simp [empty]
      rcases frames with all | ⟨p, old, new⟩
      · exact .replace below (.inl rfl) all aligned
      · rw [old] at ok
        rw [new]
        exact ⟨.inr ⟨_, _, rfl, bears_of_fits ok.linked.1.result.1 (.inl rfl), below⟩,
          aligned⟩

-----------------------------------------------------------------------------------------
-- The whole program
-----------------------------------------------------------------------------------------

/-- No generation counter wraps in the step. -/
def NoWrap (cfg : Config) (s : State) (l : Label) : Prop :=
  ∀ fr rest, (s.thr l.thread).stack = fr :: rest → fr.noWrap cfg (s.thr l.thread).tls

/-- The generation counter wraps in the next step of this frame. -/
def Frame.wraps (cfg : Config) (tls : Tls) : Frame → Bool
  | .load _ _ loc .announce => nextGeneration cfg (loc.generation tls) == 0
  | _ => false

/-- Whether a step wraps no counter, computed. -/
def wrapsNothing (cfg : Config) (s : State) (l : Label) : Bool :=
  match (s.thr l.thread).stack with
  | fr :: _ => !fr.wraps cfg (s.thr l.thread).tls
  | [] => true

theorem noWrap_of_wrapsNothing {cfg s l} (checked : wrapsNothing cfg s l = true)
    : NoWrap cfg s l := by
  intro fr rest top
  simp only [wrapsNothing, top, Bool.not_eq_true'] at checked
  unfold Frame.noWrap
  split
  · simpa [Frame.wraps] using checked
  · trivial

/-- The pass of the loop in `Slots::help` that a walk is in, until its generation is used up.
-/
def PayPc.helping : PayPc → Option Helping
  | .activeLoad h | .recheck h | .replaceWait h _ | .theirSpace h _ | .mySpace h _ _
  | .fillSpace h _ _ _ | .offer h _ _ _ | .lostWait h => some h
  | _ => none

/-- A writer inside `help` on the node `n` has read the word `gen` there. -/
def Frame.hasRead (n : NodeId) (gen : Nat) : Frame → Bool
  | .pay _ _ _ _ pc => pc.helping.any fun h => h.who == n && h.control == gen
  | _ => false

/-- The step does not publish a generation again that a writer inside `help` has read. -/
def NoRecur (s : State) (l : Label) : Prop :=
  ∀ c began loc n gen rest, (s.thr l.thread).stack = .load c began loc (.publish n gen) :: rest
    → ∀ t < s.nThr, ∀ fr ∈ (s.thr t).stack, fr.hasRead n (gen + GEN_TAG) = false

/-- What holds in every run without a wrapped counter. -/
structure State.TxOk (s : State) : Prop where
  pool : s.PoolOk
  calm : ∀ t < s.nThr, Thread.Calm s.sh (s.thr t)
  tx : TxInv s.sh s.tokens

section frames

attribute [local simp] Frame.tokens Ret.tokens IntoPc.tokens LoadPc.tokens PayPc.tokens
  CasPc.tokens RcuPc.tokens CachePc.tokens DropPc.tokens Frame.settledOn LoadPc.Calm
  LoadPc.node PayPc.Calm

/-- The token of a protection is a count or a debt. -/
theorem Prot.token_cases (g : Prot)
    : g.token = .own g.ptr ∨ ∃ n i, g.token = .debt g.ptr n i := by
  obtain ⟨p, debt, src⟩ := g
  cases debt with
  | none => exact .inl rfl
  | some slot => exact .inr ⟨slot.1, slot.2, rfl⟩

@[simp]
theorem Prot.token_ne_session (g : Prot) (n ses) : Token.session n ses ≠ g.token := by
  rcases g.token_cases with eq | ⟨_, _, eq⟩ <;> rw [eq] <;> simp

@[simp]
theorem Prot.token_cell (g : Prot) : g.token.cell = none := by
  rcases g.token_cases with eq | ⟨_, _, eq⟩ <;> rw [eq] <;> rfl

/-- A session is on the node of the thread, and its frame waits for nobody. -/
theorem Frame.session {fr : Frame} {tls n ses} (session : .session n ses ∈ fr.tokens)
    (settled : fr.settledOn tls)
    : .owned n ∈ owning tls.node + fr.holds ∧ ∀ a, ¬ fr.accepts a := by
  have load {c began loc pc} (node : loc.node tls = some n)
      : .owned n ∈ owning tls.node + (Frame.load c began loc pc).holds := by
    simpa [Frame.holds] using Loc.owned node
  have pay {c p since loc pc} (node : loc.node tls = some n)
      : .owned n ∈ owning tls.node + (Frame.pay c p since loc pc).holds := by
    have held := Loc.owned node
    simp only [Frame.holds, Multiset.mem_add] at held ⊢
    tauto
  cases fr with
  | load c began loc pc =>
      cases pc <;> simp at session settled <;>
        (obtain ⟨rfl, -⟩ := session; exact ⟨load settled, fun _ => id⟩)
  | pay c p since loc pc =>
      cases pc <;> simp at session settled <;>
        (obtain ⟨rfl, -⟩ := session; exact ⟨pay settled, fun _ => id⟩)
  | ret spec v => cases v <;> cases spec <;> simp at session
  | into _ _ pc | cas _ _ _ _ pc | rcu _ _ pc | cache _ _ pc | cellDrop _ pc =>
      cases pc <;> simp at session
  | cellInto _ p => cases p <;> simp at session
  | _ => simp at session

/-- The tokens of a frame concern the storage it borrows. -/
theorem LoadPc.tokens_cell (c : CellId) (pc : LoadPc)
    : ∀ tok ∈ pc.tokens c, tok.cell = none ∨ tok.cell = some c := by
  intro tok inside
  cases pc <;> simp only [tokens, Multiset.mem_cons, Multiset.mem_singleton,
    Multiset.notMem_zero] at inside
  case decWait g | coolWait g => exact inside ▸ .inl g.token_cell
  all_goals
    rcases inside with rfl | rfl | rfl <;> first | exact .inl rfl | exact .inr rfl

theorem PayPc.tokens_cell (c : CellId) (p : Ptr) (since : Nat) (pc : PayPc)
    : ∀ tok ∈ pc.tokens c p since, tok.cell = none ∨ tok.cell = some c := by
  intro tok inside
  cases pc <;> simp only [tokens, Multiset.mem_cons, Multiset.mem_singleton,
    Multiset.notMem_zero] at inside
  all_goals
    rcases inside with rfl | rfl | rfl | rfl | rfl <;> first | exact .inl rfl | exact .inr rfl

/-- The tokens of a storage are held by frames that borrow it, and by the result of a walk.
-/
theorem Frame.borrows {fr : Frame} {tok c} (inside : tok ∈ fr.tokens)
    (needs : tok.cell = some c)
    : fr.cell = some c ∨ ∃ p since v, fr = .ret (.walked c p since) v := by
  have bare {g : Prot} (eq : tok = g.token) : False := by
    rw [eq, g.token_cell] at needs
    cases needs
  have own {p} (eq : tok = .own p) : False := by
    rw [eq] at needs
    cases needs
  cases fr with
  | load d began loc pc =>
      rcases pc.tokens_cell d tok inside with eq | eq
      · rw [eq] at needs
        cases needs
      · exact .inl (eq.symm.trans needs)
  | pay d p since loc pc =>
      rcases pc.tokens_cell d p since tok inside with eq | eq
      · rw [eq] at needs
        cases needs
      · exact .inl (eq.symm.trans needs)
  | ret spec v =>
      cases v with
      | prot g =>
          simp only [tokens, Ret.tokens, Multiset.mem_singleton] at inside
          exact (bare inside).elim
      | ptr p =>
          cases spec with
          | walked d q since =>
              cases Multiset.mem_singleton.mp inside
              cases needs
              exact .inr ⟨_, _, _, rfl⟩
          | _ => exact (own (Multiset.mem_singleton.mp inside)).elim
      | unit | node | unwound => simp at inside
  | destructor p =>
      rw [Multiset.mem_singleton.mp inside] at needs
      cases needs
  | dec p => exact (own (Multiset.mem_singleton.mp inside)).elim
  | guardDrop g => exact (bare (Multiset.mem_singleton.mp inside)).elim
  | swap d op new => exact (own (Multiset.mem_singleton.mp inside)).elim
  | into g spec pc =>
      cases pc <;> simp only [tokens, IntoPc.tokens, Multiset.mem_cons,
        Multiset.mem_singleton] at inside
      · exact (bare inside).elim
      · exact (inside.elim bare own).elim
      · exact (own inside).elim
  | cas d op cur new pc =>
      cases pc <;> simp only [tokens, CasPc.tokens, Multiset.mem_cons, Multiset.mem_singleton,
        Multiset.notMem_zero] at inside
      case loadWait | retryWait => exact (own inside).elim
      case exchange => exact (inside.elim bare own).elim
      all_goals exact (bare inside).elim
  | rcu d op pc =>
      cases pc <;> simp only [tokens, RcuPc.tokens, Multiset.mem_singleton,
        Multiset.notMem_zero] at inside
      case doneWait => exact (own inside).elim
      all_goals exact (bare inside).elim
  | cache d p pc =>
      cases pc <;> exact (own (Multiset.mem_singleton.mp inside)).elim
  | cellDrop d pc =>
      refine .inl ?_
      cases pc <;> (rw [Multiset.mem_singleton.mp inside] at needs; exact needs)
  | cellInto d p =>
      cases p with
      | none =>
          rw [Multiset.mem_singleton.mp inside] at needs
          exact .inl needs
      | some p =>
          simp only [tokens, Multiset.mem_cons, Multiset.mem_singleton] at inside
          rcases inside with rfl | eq
          · exact .inl needs
          · exact (own eq).elim
  | _ => simp at inside

end frames

-----------------------------------------------------------------------------------------
-- What a change does not involve
-----------------------------------------------------------------------------------------

/-- Whatever is below another frame waits for it. -/
theorem StackOk.waits {f : Frame} {rest fr} (linked : StackOk (f :: rest)) (inside : fr ∈ rest)
    : ∃ a, fr.accepts a := by
  induction rest generalizing f with
  | nil => cases inside
  | cons g rest ih =>
      rcases List.mem_cons.mp inside with rfl | inside
      · exact ⟨_, linked.1⟩
      · exact ih linked.2 inside

/-- The result of a walk is at the top, above the frame that borrows the storage. -/
theorem StackOk.walked {stack : List Frame} {c p since v} (linked : StackOk stack)
    (inside : .ret (.walked c p since) v ∈ stack) (result : ∃ q, v = .ptr q)
    : ∃ fr ∈ stack, fr.cell = some c := by
  cases stack with
  | nil => cases inside
  | cons f rest =>
      rcases List.mem_cons.mp inside with rfl | below
      · obtain ⟨q, rfl⟩ := result
        obtain ⟨fit, _⟩ := linked
        cases rest with
        | nil => exact fit.elim
        | cons fr rest => exact ⟨fr, by simp, Frame.accepts.walked fit⟩
      · obtain ⟨a, waits⟩ := linked.waits below
        exact waits.elim

theorem StackOk.below {old rest : List Frame} (linked : StackOk (old ++ rest)) : StackOk rest := by
  induction old with
  | nil => exact linked
  | cons f old ih => exact ih linked.2

/-- The closure of `rcu` has a guard over its argument below it. -/
theorem StackOk.argument {rest : List Frame} {p} (linked : StackOk rest)
    (top : rest.head? = some (.closure p))
    : ∃ fr ∈ rest, ∃ g : Prot, g.token ∈ fr.tokens ∧ g.ptr = p := by
  cases rest with
  | nil => cases top
  | cons f rest =>
      cases top
      obtain ⟨fit, _⟩ := linked
      cases rest with
      | nil => exact fit.elim
      | cons fr rest =>
          obtain ⟨c, op, cur, calls, rfl, same⟩ := Frame.accepts.closure fit
          exact ⟨_, .tail _ (.head _), cur, Multiset.mem_singleton_self _, same⟩

section aside

variable {cfg : Config} {s : State} {t : ThreadId} {δ : Change} {rest : List Frame}

theorem State.Pooled.aside (pooled : s.Pooled) : (s.aside t δ rest).Pooled := by
  intro v beyond
  cases taken : δ.taken with
  | none =>
      simp only [State.aside, taken, State.without] at beyond ⊢
      exact pooled v beyond
  | some vu =>
      simp only [State.aside, taken, State.without, State.take, Function.update_apply]
        at beyond ⊢
      split
      · rfl
      · exact pooled v beyond

/-- The tokens that a change does not involve. -/
def State.kept (s : State) (t : ThreadId) (δ : Change) (rest : List Frame) : Tokens :=
  (s.aside t δ rest).shares tokenShare

/-- A frame that a change does not involve. -/
theorem State.mem_kept {tok} (inside : tok ∈ s.kept t δ rest)
    : (∃ t' < s.nThr, ∃ fr, tok ∈ fr.tokens
        ∧ (t' = t ∧ fr ∈ rest ∨ t' ≠ t ∧ fr ∈ (s.thr t').stack))
      ∨ ∃ u : UserVal, tok = u.token := by
  rcases State.mem_shares inside with ⟨t', member, held⟩ | ⟨v, _, u, _, held⟩
  · rw [State.aside_nThr] at member
    rcases held with held | ⟨fr, there, held⟩
    · simp [tokenShare] at held
    · refine .inl ⟨t', member, fr, held, ?_⟩
      rw [State.aside_thr, Function.update_apply] at there
      split at there
      · exact .inl ⟨‹_›, there⟩
      · exact .inr ⟨‹_›, there⟩
  · exact .inr ⟨u, Multiset.mem_singleton.mp held⟩

/-- The frames below do not take part in a session. -/
theorem Thread.Ok.noSession {tls old fr} (ok : Thread.Ok ⟨tls, old ++ rest⟩)
    (user : old = [] → belowUser rest) (inside : fr ∈ rest)
    : (∃ a, fr.accepts a) ∨ fr.isUser = true := by
  cases old with
  | cons f old => exact .inl (ok.linked.waits (List.mem_append_right _ inside))
  | nil =>
      cases rest with
      | nil => cases inside
      | cons f rest =>
          rcases List.mem_cons.mp inside with rfl | inside
          · exact .inr (user rfl)
          · exact .inl (ok.linked.waits inside)

/-- A frame that holds tokens is calm. -/
theorem Thread.Calm.held {sh : Shared} {th : Thread} {fr tok} (calm : Thread.Calm sh th)
    (inside : fr ∈ th.stack) (held : tok ∈ fr.tokens)
    : fr.Calm sh th.tls := by
  rcases calm.frames with all | ⟨spec, rest', eq, _, all⟩
  · exact all fr inside
  · rw [eq] at inside
    rcases List.mem_cons.mp inside with rfl | inside
    · cases spec <;> simp [Frame.tokens, Ret.tokens] at held
    · exact all fr inside

theorem State.PoolOk.split (ok : s.PoolOk) (member : t < s.nThr)
    (top : (s.thr t).stack = δ.old ++ rest) (move : Move cfg s (s.thr t).tls rest δ)
    : s.holds
      = owning (s.thr t).tls.node + listed Frame.holds δ.old
        + (s.aside t δ rest).shares holdShare := by
  have none (u : Option UserVal) : holdShare.entry u = 0 := by cases u <;> rfl
  have split :=
    (s.shares_after holdShare (fun _ none => congrArg owning none) ok.pooled member top move).1
  rw [Share.lost, none, add_zero] at split
  exact split

/-- What user code is below does not change when it makes a call. -/
theorem Move.user (move : Move cfg s (s.thr t).tls rest δ) (empty : δ.old = [])
    : belowUser rest := by
  cases move with
  | call below _ => exact below empty
  | frame | resume | deliver => cases empty

/-- Nobody else is in a session on a node that the frames of the change own. -/
theorem State.TxOk.idle (inv : s.TxOk) (member : t < s.nThr)
    (top : (s.thr t).stack = δ.old ++ rest) (move : Move cfg s (s.thr t).tls rest δ) {n}
    (owned : .owned n ∈ owning (s.thr t).tls.node + listed Frame.holds δ.old)
    : Idle n (s.kept t δ rest) := by
  intro ses inside
  rcases State.mem_kept inside with ⟨t', member', fr, held, place⟩ | ⟨u, eq⟩
  · rcases place with ⟨-, below⟩ | ⟨other, there⟩
    · have ok : Thread.Ok ⟨(s.thr t).tls, δ.old ++ rest⟩ := by
        rw [← top]
        exact inv.pool.disciplined t
      have calm := (inv.calm t member).held (top ▸ List.mem_append_right _ below) held
      rcases ok.noSession move.user below with ⟨a, waits⟩ | user
      · exact (Frame.session held calm.settled).2 a waits
      · cases fr <;> first | (simp [Frame.tokens] at held; done) | cases user
    · have calm := (inv.calm t' member').held there held
      obtain ⟨theirs, _⟩ := Frame.session held calm.settled
      have aside : .owned n ∈ (s.aside t δ rest).shares holdShare := by
        have same : (s.aside t δ rest).thr t' = s.thr t' := by
          rw [State.aside_thr, Function.update_of_ne other]
        have bound : t' < (s.aside t δ rest).nThr := by rwa [State.aside_nThr]
        rcases Multiset.mem_add.mp theirs with tls | frame
        · exact State.mem_shares_of_tls (S := holdShare) bound (same ▸ tls)
        · exact State.mem_shares_of_frame (S := holdShare) bound (same ▸ there) frame
      -- Two `LocalNode`s would refer to the node.
      have one := inv.pool.pool.owner n
      rw [inv.pool.split member top move, owners, Multiset.count_add] at one
      have mine := Multiset.one_le_count_iff_mem.mpr owned
      have theirs := Multiset.one_le_count_iff_mem.mpr aside
      split at one <;> omega
  · cases u <;> simp [UserVal.token] at eq

/-- A storage that nobody borrows has no tokens. -/
theorem State.TxOk.unused (inv : s.TxOk) (top : (s.thr t).stack = δ.old ++ rest)
    (empty : δ.old = []) {c} (unborrowed : s.borrowed c = false)
    : Unused c (s.kept t δ rest) := by
  intro tok inside needs
  have borrowed {t' fr} (member : t' < s.nThr) (there : fr ∈ (s.thr t').stack)
      (cell : fr.cell = some c)
      : False := by
    have yes : s.borrowed c = true := by
      simp only [State.borrowed, List.any_eq_true, List.mem_range]
      exact ⟨t', member, fr, there, by simp [cell]⟩
    rw [unborrowed] at yes
    cases yes
  rcases State.mem_kept inside with ⟨t', member, fr, held, place⟩ | ⟨u, rfl⟩
  · have there : fr ∈ (s.thr t').stack := by
      rcases place with ⟨rfl, below⟩ | ⟨_, there⟩
      · rw [top, empty]
        exact below
      · exact there
    rcases Frame.borrows held needs with cell | ⟨p, since, v, rfl⟩
    · exact borrowed member there cell
    · have result : ∃ q, v = .ptr q := by
        cases v with
        | ptr q => exact ⟨q, rfl⟩
        | prot g =>
            rw [Multiset.mem_singleton.mp held, g.token_cell] at needs
            cases needs
        | unit | node | unwound => cases Multiset.notMem_zero _ held
      obtain ⟨fr, there, cell⟩ := (inv.pool.disciplined t').linked.walked there result
      exact borrowed member there cell
  · cases u with
    | handle p => cases needs
    | guard g =>
        rw [UserVal.token, g.token_cell] at needs
        cases needs

/-- An address that a container can be put at. -/
theorem State.TxOk.free (inv : s.TxOk) {a} (free : s.addrFree a = true)
    : s.sh.AddrFree a := by
  intro c used same
  simp only [State.addrFree, List.all_eq_true, List.mem_range] at free
  have free := free c (inv.tx.cells.bound c used)
  simp only [Bool.or_eq_true, beq_iff_eq, bne_iff_ne] at free
  exact free.elim used fun other => other same

/-- What a step of a thread can rely on. -/
theorem State.TxOk.context (inv : s.TxOk) (member : t < s.nThr)
    (top : (s.thr t).stack = δ.old ++ rest) (move : Move cfg s (s.thr t).tls rest δ)
    : Context s.sh (s.thr t).tls δ.old
        (tokenShare.entry (δ.taken.map Prod.snd) + s.kept t δ rest) := by
  have holds := inv.pool.split member top move
  have there {h} (inside : h ∈ owning (s.thr t).tls.node + listed Frame.holds δ.old)
      : h ∈ s.holds := by
    rw [holds]
    exact Multiset.mem_add.mpr (.inl inside)
  have value {n ses} : Token.session n ses ∉ tokenShare.entry (δ.taken.map Prod.snd) := by
    cases δ.taken with
    | none => exact Multiset.notMem_zero _
    | some vu =>
        intro inside
        have eq := Multiset.mem_singleton.mp inside
        cases u : vu.2 <;> simp [u, UserVal.token] at eq
  refine ⟨inv.pool.pool.list, ?_, fun n owned ses inside => ?_, fun n owned => ?_,
    fun n fresh => ?_⟩
  · have tx := inv.tx
    have split := (s.shares_after tokenShare (fun _ _ => rfl) inv.pool.pooled member top move).1
    rw [State.tokens, split, Share.lost, add_assoc, add_assoc] at tx
    have bare : tokenShare.tls (s.thr t).tls = 0 := rfl
    rw [bare, zero_add] at tx
    exact tx
  · rcases Multiset.mem_add.mp inside with inside | inside
    · exact value inside
    · exact inv.idle member top move owned ses inside
  · exact ⟨inv.pool.pool.used (there owned), inv.pool.pool.ownedLinked n (there owned)⟩
  · exact inv.pool.pool.freshNew n (there (Multiset.mem_add.mpr (.inr fresh)))

/-- Frames that use a storage borrow it. -/
theorem Frame.cell_of_uses {fr : Frame} {c} (uses : fr.uses = some c) : fr.cell = some c := by
  cases fr <;> first | exact uses | cases uses

/-- A container is closed down by user code, when nobody borrows it. -/
theorem Move.closes {tls} (move : Move cfg s tls rest δ) {c a}
    (closes : δ.act = .closeCell c a)
    : s.borrowed c = false ∧ ∀ fr ∈ δ.new, fr.uses = none := by
  have inc {p} (closes : incAct p = .closeCell c a) : False := by
    unfold incAct at closes
    split at closes <;> cases closes
  cases move with
  | resume | deliver => cases closes
  | frame step =>
      exfalso
      cases step with
      | get step => cases step <;> cases closes
      | cool step => cases step <;> cases closes
      | dec step => cases step <;> cases closes
      | into step => cases step <;> first | exact inc closes | cases closes
      | guardDrop step => cases step <;> cases closes
      | load step => cases step <;> first | exact inc closes | cases closes
      | pay step => cases step <;> first | exact inc closes | cases closes
      | _ => cases closes
  | call below step =>
      cases step with
      | intoInner _ unborrowed => cases closes; exact ⟨unborrowed, by simp [Frame.uses]⟩
      | dropCell _ unborrowed => cases closes; exact ⟨unborrowed, by simp [Frame.uses]⟩
      | clone | cloneArg => exact (inc closes).elim
      | _ => cases closes

/-- A storage in use stays in use unless it is closed down or freed. -/
theorem Act.keepsLive {sh : Shared} {act : Act} {c} (live : sh.status c = .live)
    (bound : c < sh.nCells) (open_ : ∀ a, act ≠ .closeCell c a) (unfreed : act ≠ .freeCell c)
    : (act.exec sh).status c = .live := by
  cases act with
  | newCell => simp [exec, Nat.ne_of_lt bound, live]
  | closeCell d a =>
      have other : c ≠ d := fun eq => open_ a (by rw [eq])
      simp [exec, other, live]
  | freeCell d =>
      have other : c ≠ d := fun eq => unfreed (by rw [eq])
      simp [exec, other, live]
  | _ => exact live

theorem TxInv.tick {sh : Shared} {M : Tokens} (inv : TxInv sh M) (now : Nat)
    : TxInv { sh with time := now } M := by
  obtain ⟨⟨bound, alone, close⟩, ⟨one, ok, quiet⟩, walks⟩ := inv
  obtain ⟨offers, linked, slots, pos⟩ := walks
  have steady (n) : Steady sh { sh with time := now } n :=
    ⟨rfl, rfl, rfl, fun _ => .inl rfl⟩
  refine ⟨⟨bound, alone, close⟩, ⟨one, fun n ses inside => ?_, fun n idle => ?_⟩,
    ⟨offers, linked, slots, fun c p since pos' inside => ?_⟩⟩
  · exact (ok n ses inside).steady (steady n) fun _ _ live => ⟨live, rfl⟩
  · exact (steady n).quiet (quiet n idle)
  · exact (pos c p since pos' inside).keep ⟨fun _ => id, rfl, fun _ _ _ other => other⟩

/-- Only a container that is closed down is freed. -/
theorem ProtoStep.frees {sh r old act new c} (step : ProtoStep sh r old act new)
    (cells : CellInv sh old) (frees : act = .freeCell c)
    : sh.status c = .dropping := by
  cases step with
  | quiet quiet =>
      subst frees
      cases quiet
  | inc =>
      unfold incAct at frees
      split at frees <;> cases frees
  | freeCell =>
      cases frees
      exact cells.of_closed
  | _ => cases frees

theorem Thread.Calm.mono {sh sh' : Shared} {th : Thread} (calm : Thread.Calm sh th)
    (live
      : ∀ fr ∈ th.stack, ∀ c, fr.uses = some c → sh.status c = .live
        → sh'.status c = .live)
    : Thread.Calm sh' th := by
  have frame {fr} (inside : fr ∈ th.stack) (calm : fr.Calm sh th.tls) : fr.Calm sh' th.tls :=
    ⟨calm.settled, fun c uses => live fr inside c uses (calm.live c uses)⟩
  refine ⟨?_, calm.aligned⟩
  rcases calm.frames with all | ⟨spec, rest, eq, bearing, all⟩
  · exact .inl fun fr inside => frame inside (all fr inside)
  · refine .inr ⟨spec, rest, eq, bearing, fun fr inside => frame ?_ (all fr inside)⟩
    rw [eq]
    exact .tail _ inside

/-- A step that wraps no counter keeps everything in order, and it is one of the protocol. -/
theorem State.TxOk.after (inv : s.TxOk) (member : t < s.nThr)
    (top : (s.thr t).stack = δ.old ++ rest) (move : Move cfg s (s.thr t).tls rest δ)
    (noWrap : ∀ fr, δ.old = [fr] → fr.noWrap cfg (s.thr t).tls)
    : (s.after t δ rest).TxOk
      ∧ ∃ r, ProtoStep s.sh r s.tokens δ.act (s.after t δ rest).tokens := by
  have ctx := inv.context member top move
  have disciplined : Thread.Ok ⟨(s.thr t).tls, δ.old ++ rest⟩ := top ▸ inv.pool.disciplined t
  have calm : Thread.Calm s.sh ⟨(s.thr t).tls, δ.old ++ rest⟩ := top ▸ inv.calm t member
  have kept {tok fr} (held : tok ∈ fr.tokens) (inside : fr ∈ rest)
      : tok ∈ s.kept t δ rest := by
    refine State.mem_shares_of_frame (t := t) (by rwa [State.aside_nThr]) ?_ held
    rw [State.aside_thr, Function.update_self]
    exact inside
  obtain ⟨proto, calm'⟩ := move.proto disciplined calm ctx noWrap
    (fun v u there none => by
      have there : (s.aside t δ rest).vals v = some u := by
        simpa only [State.aside, none, State.without] using there
      exact State.mem_shares_of_val inv.pool.pooled.aside there (Multiset.mem_singleton_self _))
    (fun p argument => by
      obtain ⟨fr, inside, g, held, rfl⟩ := (StackOk.below disciplined.linked).argument argument
      exact Prot.keeps (kept held inside))
    (fun a free => inv.free free)
    (fun c unborrowed empty _ => inv.unused top empty unborrowed)
  obtain ⟨before, after⟩ :=
    s.shares_after tokenShare (fun _ _ => rfl) inv.pool.pooled member top move
  have proto : ProtoMove s.sh s.tokens δ.act (s.after t δ rest).tokens := by
    have bare (tls) : tokenShare.tls tls = 0 := rfl
    rw [State.tokens, State.tokens, before, after, Share.lost, Share.gained, bare, bare, zero_add,
      zero_add, add_assoc, add_assoc]
    exact proto
  obtain ⟨r, proto⟩ := proto
  have bound {c} (live : s.sh.status c = .live) : c < s.sh.nCells :=
    inv.tx.cells.bound c (by simp [live])
  have unfreed {c} (live : s.sh.status c = .live) : δ.act ≠ .freeCell c := by
    intro frees
    rw [proto.frees inv.tx.cells frees] at live
    cases live
  have old {t' fr c} (member : t' < s.nThr) (inside : fr ∈ (s.thr t').stack)
      (uses : fr.uses = some c) (live : s.sh.status c = .live)
      : (δ.act.exec s.sh).status c = .live := by
    refine Act.keepsLive live (bound live) (fun a closes => ?_) (unfreed live)
    have unborrowed := (move.closes closes).1
    have borrowed : s.borrowed c = true := by
      simp only [State.borrowed, List.any_eq_true, List.mem_range]
      exact ⟨t', member, fr, inside, by simp [Frame.cell_of_uses uses]⟩
    rw [unborrowed] at borrowed
    cases borrowed
  refine ⟨⟨inv.pool.after member top move, fun t' member' => ?_, ?_⟩, r, proto⟩
  · rw [State.after_nThr] at member'
    rw [State.after_thr, State.after_sh, Function.update_apply]
    split
    · refine calm'.mono fun fr inside c uses live => ?_
      rcases List.mem_append.mp inside with new | below
      · refine Act.keepsLive live (bound live) (fun a closes => ?_) (unfreed live)
        rw [(move.closes closes).2 fr new] at uses
        cases uses
      · exact old member (top ▸ List.mem_append_right _ below) uses live
    · exact (inv.calm t' member').mono fun fr inside c uses live => old member' inside uses live
  · rw [State.after_sh]
    exact (proto.tx inv.pool.pool.list inv.tx).tick _

end aside

theorem State.TxOk.init (n : Nat) : (State.init n).TxOk where
  pool := .init n
  calm _ _ := ⟨.inl nofun, rfl⟩
  tx := by
    have none : (State.init n).tokens = 0 := by
      simp [State.tokens, State.shares, total, State.init, Thread.init, Share.thread, tokenShare,
        Share.entry]
    rw [none]
    refine ⟨⟨?_, ?_, ?_⟩, ⟨?_, ?_, ?_⟩, ⟨?_, ?_, ?_, ?_⟩⟩
    case refine_6 => exact fun n _ => ⟨rfl, rfl, rfl⟩
    all_goals simp [State.init, Shared.init, CloseOk, sessions, tagOf]

/-- In a run that wraps no counter everything is in order all the time. -/
theorem txOk_of_reaches {cfg n s} {ok : State → Label → Prop}
    (noWrap : ∀ s l, ok s l → NoWrap cfg s l)
    (reached : GuardedRuns.Reaches (step cfg) ok (State.init n) s)
    : s.TxOk := by
  refine reached.invariant (.init n) fun s l s' _ inv allowed taken => ?_
  obtain ⟨δ, rest, member, top, move, rfl⟩ := step_moves taken
  refine (inv.after member top move fun fr old => ?_).1
  exact noWrap s l allowed fr rest (by rw [top, old]; rfl)

end ArcSwap
