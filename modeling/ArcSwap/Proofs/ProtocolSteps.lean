import ArcSwap.Proofs.Tokens
import ArcSwap.Proofs.Walks

/-! Every step of the program is a step of the debt protocol, and none panics, as long as no
generation counter wraps.
-/

namespace ArcSwap

open Bags

attribute [local simp] Frame.tokens Ret.tokens IntoPc.tokens LoadPc.tokens PayPc.tokens
  CasPc.tokens RcuPc.tokens CachePc.tokens DropPc.tokens Frame.uses Frame.settledOn
  LoadPc.Calm LoadPc.node PayPc.Calm CasPc.Calm

@[simp]
theorem Spec.fits_walked {c p since v} : (Spec.walked c p since).Fits v ↔ v = .ptr p :=
  .rfl

@[simp]
theorem Spec.fits_plain {v} : Spec.plain.Fits v := trivial

@[simp]
theorem Spec.fits_load {c began v} : (Spec.load c began).Fits v := trivial

@[simp]
theorem Spec.fits_swapped {c op cur new v} : (Spec.swapped c op cur new).Fits v := trivial

@[simp]
theorem Frame.calm_iff {sh tls} {fr : Frame}
    : fr.Calm sh tls ↔ fr.settledOn tls ∧ ∀ c, fr.uses = some c → sh.status c = .live :=
  ⟨fun calm => ⟨calm.settled, calm.live⟩, fun calm => ⟨calm.1, calm.2⟩⟩

/-- What a step of a thread can rely on: its frames `old` hold their tokens, the others hold
the tokens `kept`.
-/
structure Context (sh : Shared) (tls : Tls) (old : List Frame) (kept : Tokens) : Prop where
  list : sh.ListOk
  tx : TxInv sh (listed Frame.tokens old + kept)
  idle : ∀ n, .owned n ∈ owning tls.node + listed Frame.holds old → Idle n kept
  owned
    : ∀ n, .owned n ∈ owning tls.node + listed Frame.holds old
        → sh.inUse n = NODE_USED ∧ sh.linked n = true
  fresh : ∀ n, .fresh n ∈ listed Frame.holds old → sh.linked n = false ∧ n < sh.nNodes

/-- A step of the protocol, whatever is not involved. -/
def ProtoMove (sh : Shared) (old : Tokens) (act : Act) (new : Tokens) : Prop :=
  ∃ r, ProtoStep sh r old act new

/-- A step of the protocol to calm frames. -/
structure Goes (sh : Shared) (kept old : Tokens) (act : Act) (tls : Tls)
    (frames : List Frame) : Prop where
  step : ProtoMove sh (old + kept) act (listed Frame.tokens frames + kept)
  calm : ∀ fr ∈ frames, fr.Calm sh tls

section steps

variable {sh : Shared} {tls : Tls} {kept : Tokens}

/-- What the session of the top frame knows. -/
theorem Context.session {tls kept} {fr : Frame} {n ses} (ctx : Context sh tls [fr] kept)
    (inside : .session n ses ∈ fr.tokens)
    : ses.Ok sh n := by
  refine ctx.tx.sessions.ok n ses (mem_sessions.mpr ?_)
  rw [listed_cons, listed_nil, add_zero]
  exact Multiset.mem_add.mpr (.inl inside)

/-- What the walk of the top frame knows. -/
theorem Context.walk {tls kept c p since loc pc pos}
    (ctx : Context sh tls [.pay c p since loc pc] kept)
    (inside : .walk c p since pos ∈ pc.tokens c p since)
    : pos.Ok sh c := by
  refine ctx.tx.walks.pos c p since pos ?_
  rw [listed_cons, listed_nil, add_zero]
  exact Multiset.mem_add.mpr (.inl inside)

/-- An access that does not concern the protocol. -/
theorem ProtoMove.same {M M' : Tokens} {a : Act} (quiet : a.protocolQuiet) (eq : M' = M)
    : ProtoMove sh M a M' :=
  ⟨M, eq ▸ .quiet quiet⟩

theorem GetStep.proto {tmp pc act tls' frames}
    (step : GetStep sh tls tmp pc act tls' frames)
    (ctx : Context sh tls [.get tmp pc] kept)
    : Goes sh kept 0 act tls' frames := by
  cases step with
  | fresh => exact ⟨⟨kept, by simpa using .newNode⟩, by simp⟩
  | @link n =>
      obtain ⟨unlinked, bound⟩ := ctx.fresh n (by simp [Frame.holds, GetPc.holds])
      exact ⟨⟨kept, by simpa using .link unlinked bound⟩, by simp⟩
  | _ => exact ⟨.same (by trivial) (by simp), by simp⟩

theorem CoolStep.proto {n pc act frames} (step : CoolStep sh n pc act frames)
    (ctx : Context sh tls [.cool n pc] kept)
    : Goes sh kept 0 act tls frames := by
  cases step with
  | notUsed other =>
      exact absurd (ctx.owned n (by simp [Frame.holds, CoolPc.holds])).1 other
  | _ => exact ⟨.same (by trivial) (by simp), by simp⟩

theorem DecStep.proto {p act frames} (step : DecStep sh p act frames)
    : Goes sh kept {.own p} act tls frames := by
  cases step with
  | null null => exact ⟨⟨kept, by simpa using .decNull null⟩, by simp⟩
  | last real one => exact ⟨⟨kept, by simpa using .decLast real one⟩, by simp⟩
  | more real other => exact ⟨⟨kept, by simpa using .decMore real other⟩, by simp⟩

theorem Prot.token_owned {g : Prot} (none : g.debt = none) : g.token = .own g.ptr := by
  simp [token, none]

theorem Prot.token_owed {g : Prot} {n i} (owed : g.debt = some (n, i))
    : g.token = .debt g.ptr n i := by
  simp [token, owed]

/-- Who holds a protection keeps its pointer. -/
theorem Prot.keeps {g : Prot} {r : Tokens} (inside : g.token ∈ r) : Kept g.ptr r := by
  obtain ⟨p, debt, src⟩ := g
  cases debt with
  | none => exact .inl inside
  | some slot => exact .inr (.inl ⟨slot.1, slot.2, inside⟩)

theorem IntoStep.proto {g spec pc act frames} (step : IntoStep sh g spec pc act frames)
    (plain : ∀ c p since, spec ≠ .walked c p since)
    : Goes sh kept (pc.tokens g) act tls frames := by
  have result : (Ret.ptr g.ptr).tokens spec = {.own g.ptr} := by
    cases spec <;> first | rfl | exact absurd rfl (plain _ _ _)
  cases step with
  | full none =>
      have same : listed Frame.tokens [.ret spec (.ptr g.ptr)] = {g.token} := by
        rw [g.token_owned none, ← result]
        exact add_zero _
      exact ⟨.same trivial (congrArg (· + kept) same), by simp [Spec.fits plain]⟩
  | inc owed =>
      refine ⟨⟨g.token ::ₘ kept, ?_⟩, by simpa using plain⟩
      have kept : Kept g.ptr (g.token ::ₘ kept) := Prot.keeps (Multiset.mem_cons_self _ _)
      simpa [Multiset.cons_swap g.token] using ProtoStep.inc kept
  | paid owed there =>
      refine ⟨⟨.own g.ptr ::ₘ kept, ?_⟩, by simp [Spec.fits plain]⟩
      simpa [result, g.token_owed owed] using ProtoStep.paid there
  | wasPaid owed other =>
      refine ⟨⟨.own g.ptr ::ₘ kept, ?_⟩, by simpa using plain⟩
      simpa [g.token_owed owed] using ProtoStep.wasPaid other

theorem GuardDropStep.proto {g act frames} (step : GuardDropStep sh g act frames)
    : Goes sh kept {g.token} act tls frames := by
  cases step with
  | full none => exact ⟨.same trivial (by simp [g.token_owned none]), by simp⟩
  | paid owed there =>
      exact ⟨⟨kept, by simpa [g.token_owed owed] using .paid there⟩, by simp⟩
  | wasPaid owed other =>
      exact ⟨⟨kept, by simpa [g.token_owed owed] using .wasPaid other⟩, by simp⟩

/-- The end of a load. -/
theorem finishLoad_tokens (c began now loc g)
    : listed Frame.tokens (finishLoad c began now loc g) = {g.token} := by
  cases loc with
  | tls => simp [finishLoad, Prot.token]
  | tmp node => cases node <;> simp [finishLoad, Prot.token]

theorem finishLoad_calm {c} (live : sh.status c = .live) (began now loc g)
    : ∀ fr ∈ finishLoad c began now loc g, fr.Calm sh tls := by
  cases loc with
  | tls => simp [finishLoad]
  | tmp node => cases node <;> simp [finishLoad, live]

theorem nextGeneration_aligned (cfg : Config) {g : Nat} (aligned : g % 4 = 0)
    : nextGeneration cfg g % 4 = 0 := by
  have sum : (g + 4) % 4 = 0 := by omega
  unfold nextGeneration
  rcases Nat.lt_or_ge cfg.width 2 with narrow | wide
  · obtain eq | eq : cfg.width = 0 ∨ cfg.width = 1 := by omega
    · simp [eq, Nat.mod_one]
    · rw [eq]
      omega
  · obtain ⟨k, eq⟩ := Nat.exists_eq_add_of_le wide
    have four : (4 : Nat) ∣ 2 ^ cfg.width := ⟨2 ^ k, by rw [eq, Nat.pow_add]⟩
    rw [Nat.mod_mod_of_dvd _ four, sum]

/-- No generation counter wraps in a step of this frame. -/
def Frame.noWrap (cfg : Config) (tls : Tls) : Frame → Prop
  | .load _ _ loc .announce => nextGeneration cfg (loc.generation tls) ≠ 0
  | _ => True

theorem LoadStep.proto {cfg c began loc pc act tls' frames}
    (step : LoadStep cfg sh tls c began loc pc act tls' frames)
    (ctx : Context sh tls [.load c began loc pc] kept)
    (calm : Frame.Calm sh tls (.load c began loc pc))
    (aligned : loc.generation tls % 4 = 0) (noWrap : (Frame.load c began loc pc).noWrap cfg tls)
    : Goes sh kept (pc.tokens c) act tls' frames := by
  have settled : pc.Calm (loc.node tls) := calm.settled
  have live : sh.status c = .live := calm.live c rfl
  have owned {n} (node : loc.node tls = some n)
      : .owned n ∈ owning tls.node + listed Frame.holds [.load c began loc pc] := by
    simpa [Frame.holds] using Loc.owned node
  have sess := ctx.tx.sessions
  cases step with
  | enter =>
      rename_i node
      refine ⟨.same trivial ?_, ?_⟩ <;> cases sh.useFast c <;> simp [node, Loc.node, live]
  | enterGet | enterTmp => exact ⟨.same trivial (by simp), by simp [live]⟩
  | noNode uses bad =>
      exfalso
      obtain ⟨n, node⟩ : ∃ n, loc.node tls = some n := by
        rcases uses with rfl | rfl | ⟨n, gen, p, rfl⟩
        · exact Option.isSome_iff_exists.mp settled
        · exact Option.isSome_iff_exists.mp settled
        · exact ⟨n, settled⟩
      rcases bad with bare | ⟨node', _, other⟩
      · rw [bare] at node
        cases node
      · exact other (ctx.owned _ (owned node')).1
  | first node => exact ⟨⟨kept, by simpa using .first live⟩, by simp [node, live]⟩
  | @scanFree _ n p k free =>
      have fast : (k + loc.offset tls) % DEBT_SLOT_CNT < DEBT_SLOT_CNT :=
        Nat.mod_lt _ (by decide)
      have node : loc.node tls = some n := settled
      refine ⟨⟨kept, ?_⟩, by simp [node, live]⟩
      simpa using .scan (ctx.owned n (owned node)).2 (ctx.idle n (owned node)) fast free
  | @scanNext _ n =>
      have node : loc.node tls = some n := settled
      exact ⟨.same trivial (by simp), by simp [node, live]⟩
  | @scanFull _ n =>
      have node : loc.node tls = some n := settled
      exact ⟨⟨kept, by simpa using .scanFull⟩, by simp [node, live]⟩
  | @take _ n =>
      have node : loc.node tls = some n := settled
      exact ⟨⟨kept, by simpa using .register⟩, by simp [node, live]⟩
  | @takePanic _ n p i taken =>
      obtain ⟨_, _, empty⟩ : (Session.scanned i p).Ok sh n := ctx.session (by simp)
      exact absurd empty taken
  | confirmed same =>
      refine ⟨⟨kept, ?_⟩, finishLoad_calm live _ _ _ _⟩
      simpa [finishLoad_tokens, Prot.token] using .confirmFast live same
  | @changed _ n =>
      have node : loc.node tls = some n := settled
      exact ⟨.same trivial (by simp), by simp [node, live]⟩
  | @paidBack _ n p i there =>
      have node : loc.node tls = some n := settled
      exact ⟨⟨kept, by simpa using .payBack there⟩, by simp [node, live]⟩
  | alreadyPaid other =>
      refine ⟨⟨kept, ?_⟩, finishLoad_calm live _ _ _ _⟩
      simpa [finishLoad_tokens, Prot.token] using .adopt other
  | @announce _ n gen node next =>
      subst next
      have aligned := nextGeneration_aligned cfg aligned
      refine ⟨⟨kept, ?_⟩, by simp [node, live]⟩
      simpa using
        .announce (ctx.owned n (owned node)).2 (ctx.idle n (owned node)) live aligned noWrap
  | announcePanic node next tag =>
      subst next
      have aligned := nextGeneration_aligned cfg aligned
      omega
  | @publish _ n gen =>
      have node : loc.node tls = some n := settled
      exact ⟨⟨kept, by simpa using .publish⟩, by simp [node, live]⟩
  | @publishPanic _ n gen left =>
      obtain ⟨quiet, _⟩ : (Session.announced c gen).Ok sh n := ctx.session (by simp)
      exact absurd quiet.control left
  | @publishWrapped n | @publishWrappedTmp n =>
      obtain ⟨_, _, _, _, fresh⟩ : (Session.announced c 0).Ok sh n := ctx.session (by simp)
      exact absurd rfl fresh
  | @candidate _ n =>
      have node : loc.node tls = some n := settled
      exact ⟨⟨kept, by simpa using .candidate⟩, by simp [node, live]⟩
  | @fill _ m n gen p node =>
      have same : loc.node tls = some m := settled
      rw [node] at same
      cases same
      exact ⟨⟨kept, by simpa using .fill⟩, by simp [node, live]⟩
  | @fillPanic _ m n gen p node taken =>
      have same : loc.node tls = some m := settled
      rw [node] at same
      cases same
      obtain ⟨_, empty⟩ : (Session.candidate c gen p).Ok sh m := ctx.session (by simp)
      exact absurd empty taken
  | @unhelped _ n gen p same =>
      have node : loc.node tls = some n := settled
      exact ⟨⟨kept, by simpa using .unhelped same⟩, by simp [node, live]⟩
  | @helped _ n gen p other =>
      have node : loc.node tls = some n := settled
      refine ⟨⟨.pending p n HELPING ::ₘ kept, ?_⟩, by simp [node, live]⟩
      simpa using .helped other rfl rfl
  | @helpedPanic _ n gen p other tag =>
      obtain ⟨tx, _⟩ : (Session.filled c gen p).Ok sh n := ctx.session (by simp)
      rcases tx.control with ⟨same, _⟩ | ⟨replaced, _⟩
      · exact absurd same other
      · exact absurd replaced tag
  | @ownInc _ n p =>
      have node : loc.node tls = some n := settled
      have keeps : Kept p (.session n (.ended p) ::ₘ .debt p n HELPING ::ₘ kept) :=
        .inr (.inl ⟨n, HELPING, by simp⟩)
      refine ⟨⟨.session n (.ended p) ::ₘ .debt p n HELPING ::ₘ kept, ?_⟩,
        by simp [node, live]⟩
      simpa [Multiset.cons_swap _ (Token.own p)] using ProtoStep.inc keeps
  | @ownPaid _ n p there =>
      refine ⟨⟨.own p ::ₘ kept, ?_⟩, finishLoad_calm live _ _ _ _⟩
      simpa [finishLoad_tokens, Prot.token] using .ownPaid there
  | @ownWasPaid _ n p other =>
      have node : loc.node tls = some n := settled
      refine ⟨⟨.own p ::ₘ kept, ?_⟩, by simp [node, live]⟩
      simpa [Prot.token] using .ownWasPaid other
  | @envelope _ n p e g =>
      have node : loc.node tls = some n := settled
      refine ⟨⟨.pending p n HELPING ::ₘ kept, ?_⟩, by simp [node, live]⟩
      simpa using .readEnvelope rfl rfl
  | @restore _ n p e g =>
      have node : loc.node tls = some n := settled
      refine ⟨⟨.own g ::ₘ .pending p n HELPING ::ₘ kept, ?_⟩, by simp [node, live]⟩
      simpa [Multiset.cons_swap (Token.own g)] using .restore
  | @unusedPaid _ n p g there =>
      refine ⟨⟨.own g ::ₘ kept, ?_⟩, finishLoad_calm live _ _ _ _⟩
      simpa [finishLoad_tokens, Prot.token] using .unusedPaid there
  | @unusedWasPaid _ n p g other =>
      have node : loc.node tls = some n := settled
      refine ⟨⟨.own g ::ₘ kept, ?_⟩, by simp [node, live]⟩
      simpa [Prot.token] using .unusedWasPaid other

section pay

variable {c : CellId} {p : Ptr} {since : Nat} {loc : Loc}

/-- A helper that has read a valid word does not panic. -/
theorem Dispatch.proto {h frames} (sh : Shared) (step : Dispatch c p since loc h frames)
    (node : loc.node tls = some h.self) (word : Word h.control)
    : ∃ pos, Dispatched h pos ∧ (∀ fr ∈ frames, fr.Calm sh tls)
        ∧ listed Frame.tokens frames = .walk c p since pos ::ₘ {.own p} := by
  cases step with
  | active gen => exact ⟨_, .active gen, by simp [node], by simp⟩
  | slots other => exact ⟨_, .slots other, by simp [node], by simp⟩
  | invalid gen replaced idle =>
      rcases word with word | word | word
      · exact absurd word gen
      · exact absurd word replaced
      · exact absurd word idle

theorem pay_tokens (pc : PayPc)
    : listed Frame.tokens [.pay c p since loc pc] = pc.tokens c p since :=
  add_zero _

theorem PayPc.tokens_at (o : Option NodeId)
    : (PayPc.at o).tokens c p since = .walk c p since (.at o) ::ₘ {.own p} := by
  cases o <;> rfl

theorem PayPc.calm_at (o : Option NodeId) {node : Option NodeId} (some : node.isSome = true)
    : (PayPc.at o).Calm node := by
  cases o
  · trivial
  · exact some

theorem PayPc.tokens_nextSlot {n : NodeId} {period j : Nat} (bound : j ≤ HELPING)
    : (PayPc.nextSlot n period j).tokens c p since
      = .walk c p since (.slots n (j + 1)) ::ₘ {.own p} := by
  unfold PayPc.nextSlot
  split
  · rfl
  · have last : j = HELPING := by omega
    rw [last]
    rfl

theorem PayPc.calm_nextSlot (n : NodeId) (period j : Nat) {node : Option NodeId}
    (some : node.isSome = true)
    : (PayPc.nextSlot n period j).Calm node := by
  unfold PayPc.nextSlot
  split
  · exact ⟨some, by omega⟩
  · exact some

theorem PayStep.proto {cfg pc act frames}
    (step : PayStep cfg sh tls c p since loc pc act frames)
    (ctx : Context sh tls [.pay c p since loc pc] kept)
    (calm : Frame.Calm sh tls (.pay c p since loc pc))
    : Goes sh kept (pc.tokens c p since) act tls frames := by
  have settled : pc.Calm (loc.node tls) := calm.settled
  have owned {n} (node : loc.node tls = some n)
      : .owned n ∈ owning tls.node + listed Frame.holds [.pay c p since loc pc] := by
    have held := Loc.owned node
    simp only [Multiset.mem_add] at held
    simp only [listed_cons, listed_nil, add_zero, Frame.holds, Multiset.mem_add]
    tauto
  have word := ctx.tx.sessions.word
  cases step with
  | @enter n alive node =>
      have node : Loc.tls.node tls = some n := node
      exact ⟨.same trivial (by simp), by simp [node]⟩
  | enterGet | enterTmp => exact ⟨.same trivial (by simp), by simp⟩
  | inc =>
      have node : (loc.node tls).isSome = true := settled
      have keeps : Kept p (.walk c p since .start ::ₘ kept) :=
        .inr (.inr ⟨c, since, .start, by simp⟩)
      refine ⟨⟨.walk c p since .start ::ₘ kept, ?_⟩, by simp [node]⟩
      simpa [Multiset.cons_swap _ (Token.own p)] using ProtoStep.inc keeps
  | head =>
      have node : (loc.node tls).isSome = true := settled
      refine ⟨⟨.own p ::ₘ kept, ?_⟩, ?_⟩
      · rw [pay_tokens, PayPc.tokens_at]
        simpa using .head
      · simpa using PayPc.calm_at _ node
  | reserve =>
      have node : (loc.node tls).isSome = true := settled
      exact ⟨.same trivial (by simp), by simp [node]⟩
  | noNode bad =>
      exfalso
      obtain ⟨n, node⟩ :=
        Option.isSome_iff_exists.mp (show (loc.node tls).isSome = true from settled)
      rcases bad with bare | ⟨node', _, other⟩
      · rw [bare] at node
        cases node
      · exact other (ctx.owned _ (owned node')).1
  | @help n period self _ node dispatch =>
      obtain ⟨pos, dispatched, calm, tokens⟩ := dispatch.proto sh node (word n)
      refine ⟨⟨.own p ::ₘ kept, ?_⟩, calm⟩
      rw [tokens]
      have idle : Idle self (.own p ::ₘ kept) := by
        simpa using ctx.idle self (owned node)
      simpa using .help rfl rfl rfl rfl (ctx.owned self (owned node)).2 idle dispatched
  | @helpPanic n period self node busy =>
      have sess := ctx.tx.sessions
      simp only [listed_cons, listed_nil, add_zero, Frame.tokens, PayPc.tokens,
        Multiset.cons_add, Multiset.singleton_add, sessions_walk, sessions_own] at sess
      exact absurd (sess.idle (ctx.idle self (owned node))).control busy
  | @agrees h same =>
      have node : loc.node tls = some h.self := settled
      have live : sh.status c = .live :=
        ctx.tx.cells.agrees (by simp; exact .inl ⟨rfl, rfl⟩) (ctx.walk (by simp)) same
      exact ⟨⟨.own p ::ₘ kept, by simpa using .agrees same⟩, by simp [node, live]⟩
  | @differs h other =>
      have node : loc.node tls = some h.self := settled
      exact ⟨⟨.own p ::ₘ kept, by simpa using .differs other⟩, by simp [node]⟩
  | @helpMyself h self =>
      obtain ⟨ok, _⟩ : (Pos.active h).Ok sh c := ctx.walk (by simp)
      exact absurd self.symm ok.other
  | @unchanged h same =>
      have node : loc.node tls = some h.self := settled
      exact ⟨⟨.own p ::ₘ kept, by simpa using .unchanged same⟩, by simp [node]⟩
  | @again h _ other dispatch =>
      have node : loc.node tls = some h.self := settled
      obtain ⟨pos, dispatched, calm, tokens⟩ := dispatch.proto sh node (word h.who)
      refine ⟨⟨.own p ::ₘ kept, ?_⟩, calm⟩
      rw [tokens]
      simpa using .again other dispatched
  | @theirSpace h g =>
      have node : loc.node tls = some h.self := settled
      refine ⟨⟨.own g.ptr ::ₘ .own p ::ₘ kept, ?_⟩, by simp [node]⟩
      simpa using .theirSpace
  | @mySpace h g their =>
      have node : loc.node tls = some h.self := settled
      have idle : Idle h.self (.own g.ptr ::ₘ .own p ::ₘ kept) := by
        simpa using ctx.idle h.self (owned node)
      refine ⟨⟨.own g.ptr ::ₘ .own p ::ₘ kept, ?_⟩, by simp [node]⟩
      simpa using .mySpace idle
  | @fillSpace h g their mine aligned =>
      have node : loc.node tls = some h.self := settled
      have keeps
          : .own g.ptr ∈ .walk c p since (.space h their) ::ₘ .own g.ptr ::ₘ .own p
            ::ₘ kept := by
        simp
      refine ⟨⟨.walk c p since (.space h their) ::ₘ .own g.ptr ::ₘ .own p ::ₘ kept, ?_⟩,
        by simp [node]⟩
      simpa [Multiset.cons_swap (Token.walk _ _ _ _)] using ProtoStep.fillSpace keeps
  | @envelopeTag h g their mine tagged =>
      obtain ⟨_, aligned⟩ : (Session.envelope mine).Ok sh h.self := ctx.session (by simp)
      exact absurd aligned tagged
  | @handOver h g their mine same =>
      have node : loc.node tls = some h.self := settled
      refine ⟨⟨.own p ::ₘ kept, ?_⟩, by simp [node]⟩
      simpa using .handOver same
  | @lost h g their mine other =>
      have node : loc.node tls = some h.self := settled
      refine ⟨⟨.own g.ptr ::ₘ .own p ::ₘ kept, ?_⟩, by simp [node]⟩
      simpa [Multiset.cons_swap (Token.own g.ptr), Helping.again] using .lose other
  | @exchange h their =>
      have node : loc.node tls = some h.self := settled
      exact ⟨⟨.own p ::ₘ kept, by simpa using .exchange⟩, by simp [node]⟩
  | @settle n period j there =>
      obtain ⟨node, bound⟩ : (loc.node tls).isSome = true ∧ j ≤ HELPING := settled
      exact ⟨⟨kept, by simpa using .settle there⟩, by simp [node, bound]⟩
  | @skip n period j other =>
      obtain ⟨node, bound⟩ : (loc.node tls).isSome = true ∧ j ≤ HELPING := settled
      refine ⟨⟨.own p ::ₘ kept, ?_⟩, ?_⟩
      · rw [pay_tokens, PayPc.tokens_nextSlot bound]
        simpa using .skip other
      · simpa using PayPc.calm_nextSlot n period j node
  | @bump n period j =>
      obtain ⟨node, bound⟩ : (loc.node tls).isSome = true ∧ j ≤ HELPING := settled
      have keeps : Kept p (.walk c p since (.slots n (j + 1)) ::ₘ kept) :=
        .inr (.inr ⟨c, since, _, Multiset.mem_cons_self _ _⟩)
      refine ⟨⟨.walk c p since (.slots n (j + 1)) ::ₘ kept, ?_⟩, ?_⟩
      · rw [pay_tokens, PayPc.tokens_nextSlot bound]
        simpa [Multiset.cons_swap _ (Token.own p)] using ProtoStep.inc keeps
      · simpa using PayPc.calm_nextSlot n period j node
  | @leave n period =>
      have node : (loc.node tls).isSome = true := settled
      refine ⟨⟨.own p ::ₘ kept, ?_⟩, ?_⟩
      · rw [pay_tokens, PayPc.tokens_at]
        simpa using .leave (Nat.lt_succ_self _)
      · simpa using PayPc.calm_at _ node
  | dropVal =>
      refine ⟨⟨.own p ::ₘ kept, ?_⟩, by simp⟩
      simpa [Multiset.cons_swap (Token.own p)] using .finish
  | abandon => exact settled.elim

end pay

theorem FrameStep.proto {cfg fr act tls' frames}
    (step : FrameStep cfg sh tls fr act tls' frames) (ctx : Context sh tls [fr] kept)
    (calm : fr.Calm sh tls) (aligned : tls.generation % 4 = 0) (noWrap : fr.noWrap cfg tls)
    : Goes sh kept fr.tokens act tls' frames := by
  cases step with
  | get step => exact step.proto ctx
  | cool step => exact step.proto ctx
  | dec step => exact step.proto
  | panicked => exact calm.settled.elim
  | into step => exact step.proto calm.settled
  | guardDrop step => exact step.proto
  | @load c began loc pc _ _ _ step =>
      refine step.proto ctx calm ?_ noWrap
      cases loc with
      | tls => exact aligned
      | tmp => rfl
  | pay step => exact step.proto ctx calm
  | @swap c op new =>
      have live := calm.live c rfl
      exact ⟨⟨kept, by simpa using .write live rfl (.inl rfl)⟩, by simp [live]⟩
  | @casExchange c op cur new old same =>
      have live := calm.live c rfl
      have eq : old.ptr.addr = (sh.ptr c).addr := (Eq.trans calm.settled same.symm)
      have keeps : Kept old.ptr (old.token ::ₘ kept) := Prot.keeps (Multiset.mem_cons_self _ _)
      refine ⟨⟨old.token ::ₘ kept, ?_⟩, by simp [live]⟩
      simpa [Multiset.cons_swap old.token (Token.own _)] using
        ProtoStep.write live eq (.inr keeps)
  | @casRetry c op cur new old =>
      have live := calm.live c rfl
      exact ⟨.same trivial (by simp), by simp [live]⟩
  | cacheHit => exact ⟨.same trivial (by simp), by simp⟩
  | @cacheMiss c =>
      have live := calm.live c rfl
      exact ⟨.same trivial (by simp), by simp [live]⟩
  | dropFree => exact ⟨⟨kept, by simpa using .freeCell⟩, by simp⟩
  | @intoFree c p => exact ⟨⟨.own p ::ₘ kept, by simpa using .freeCell⟩, by simp⟩

/-- Only a panic of a closure goes on unwinding, and only through frames that hold nothing.
-/
theorem ResumeStep.unwinds {spec caller v s frames} (step : ResumeStep sh caller v frames)
    (eq : frames = [.ret s .unwound]) (calm : caller.Calm sh tls)
    (below : v = .unwound → caller.accepts (.ptr .plain) ∨ caller.accepts .unit)
    : v.tokens spec + caller.tokens = 0
      ∧ (caller.answer = .ptr .plain ∨ caller.answer = .unit) := by
  have settled := calm.settled
  have none {spec} : Ret.tokens spec .unit = 0 := by cases spec <;> rfl
  have none' {spec} : Ret.tokens spec .unwound = 0 := by cases spec <;> rfl
  cases step with
  | loadUnwind | payUnwind | casUnwind => exact settled.elim
  | rcuUnwind => exact ⟨by rw [none]; rfl, .inl rfl⟩
  | unwind step =>
      have below := below rfl
      cases step with
      | store => exact ⟨by rw [none']; rfl, .inr rfl⟩
      | load => exact settled.elim
      | loadFull | swap | rcuLoad =>
          simp [Frame.accepts, Answer.is, Answer.isWalk, RcuPc.accepts] at below
      | _ => cases eq
  | loadDec =>
      unfold finishLoad at eq
      split at eq <;> cases eq
  | payDec =>
      unfold finishPay at eq
      split at eq <;> cases eq
  | payLost dispatch => cases dispatch <;> cases eq
  | _ => cases eq

/-- What waits for a result takes it and goes on. -/
theorem ResumeStep.proto {spec caller v frames} (step : ResumeStep sh caller v frames)
    (fit : caller.accepts (v.answer spec)) (goesOn : ∀ s, frames ≠ [.ret s .unwound])
    (below : v = .unwound → caller.accepts (.ptr .plain) ∨ caller.accepts .unit)
    (fits : v ≠ .unwound → spec.Fits v) (ctx : Context sh tls [.ret spec v, caller] kept)
    (calm : caller.Calm sh tls) (knows : Frame.knows tls (.ret spec v))
    : Goes sh kept (v.tokens spec + caller.tokens) .nop tls frames := by
  have settled := calm.settled
  have live {c} (uses : caller.uses = some c) := calm.live c uses
  cases step with
  | loadDiscard | loadUnwind | payUnwindTmp | payUnwind | casUnwind => exact settled.elim
  | @loadNode c began loc n tmp =>
      have live := live rfl
      have node : (if tmp then Loc.tmp (some n) else .tls).node tls = some n := by
        cases tmp
        · exact knows
        · rfl
      refine ⟨.same trivial ?_, ?_⟩
      · cases spec <;> cases sh.useFast c <;> simp
      · cases sh.useFast c <;> simp [node, live]
  | @loadDec c began loc g =>
      refine ⟨.same trivial ?_, finishLoad_calm (live rfl) _ _ _ _⟩
      rw [finishLoad_tokens]
      cases spec <;> simp
  | loadCool | payCool => exact ⟨.same trivial (by cases spec <;> simp), by simp⟩
  | loadFull => exact ⟨.same trivial (by cases spec <;> simp), by simp⟩
  | @into g s =>
      have result : Ret.tokens s (.ptr g.ptr) = {.own g.ptr} := by
        cases s <;> first | rfl | exact absurd rfl (settled _ _ _)
      refine ⟨.same trivial ?_, by simp [Spec.fits settled]⟩
      rw [listed_cons, listed_nil, add_zero, Frame.tokens, result]
      cases spec <;> simp
  | @payNode c p since loc n tmp =>
      have node : (if tmp then Loc.tmp (some n) else .tls).node tls = some n := by
        cases tmp
        · exact knows
        · rfl
      exact ⟨.same trivial (by cases spec <;> simp), by simp [node]⟩
  | @payReplace c p since loc h began g =>
      have node : loc.node tls = some h.self := settled
      obtain rfl : spec = .load c began := by
        simpa [Frame.accepts, PayPc.accepts, Answer.is, Ret.answer] using fit
      exact ⟨.same trivial (by simp), by simp [node]⟩
  | @payLost c p since loc h _ dispatch =>
      have node : loc.node tls = some h.self := settled
      obtain ⟨_, _, _, word, _⟩ : (Pos.lost h).Ok sh c :=
        ctx.tx.walks.pos c p since (.lost h) (by simp)
      obtain ⟨pos, dispatched, calm, tokens⟩ := dispatch.proto sh node word
      refine ⟨⟨.own p ::ₘ kept, ?_⟩, calm⟩
      rw [tokens]
      cases spec <;> simpa using .retry dispatched
  | @payDec c p since loc =>
      unfold finishPay
      split
      · exact ⟨.same trivial (by cases spec <;> simp), by simp⟩
      · exact ⟨.same trivial (by cases spec <;> simp), by simp⟩
  | @swap c p =>
      obtain ⟨q, since, rfl⟩ : ∃ q since, spec = .walked c q since := by
        simpa [Frame.accepts, Answer.isWalk, Ret.answer] using fit
      cases fits (by simp)
      exact ⟨⟨kept, by simpa using .told (live rfl)⟩, by simp⟩
  | store =>
      obtain rfl : spec = .plain := by simpa [Frame.accepts, Answer.is, Ret.answer] using fit
      exact ⟨.same trivial (by simp), by simp⟩
  | casReject =>
      exact ⟨.same trivial (by cases spec <;> simp [Multiset.cons_swap (Token.own _)]),
        by simp [live rfl]⟩
  | casTry same =>
      exact ⟨.same trivial (by cases spec <;> simp), by simp [live rfl, same]⟩
  | casRetry => exact ⟨.same trivial (by cases spec <;> simp), by simp [live rfl]⟩
  | @casPaid c op cur new old p =>
      obtain ⟨since, rfl⟩ : ∃ since, spec = .walked c old.ptr since := by
        simpa [Frame.accepts, CasPc.accepts, Ret.answer] using fit
      cases fits (by simp)
      refine ⟨⟨old.token ::ₘ kept, ?_⟩, by simp [live rfl]⟩
      simpa using .told (live rfl)
  | casDone | casRejected => exact ⟨.same trivial (by cases spec <;> simp), by simp⟩
  | rcuLoad => exact ⟨.same trivial (by cases spec <;> simp), by simp [live rfl]⟩
  | rcuTry =>
      obtain rfl : spec = .plain := by
        simpa [Frame.accepts, RcuPc.accepts, Answer.is, Ret.answer] using fit
      exact ⟨.same trivial (by simp), by simp [live rfl]⟩
  | rcuPanic => exact ⟨.same trivial (by cases spec <;> simp), by simp [live rfl]⟩
  | rcuSwapped => exact ⟨.same trivial (by cases spec <;> simp), by simp [live rfl]⟩
  | @rcuLost c op cur new calls prev =>
      refine ⟨.same trivial ?_, by simp [live rfl]⟩
      cases spec <;> simp [Multiset.cons_swap prev.token cur.token]
  | @rcuInto c op cur prev calls g =>
      obtain rfl : spec = .value prev := by
        simpa [Frame.accepts, RcuPc.accepts, Answer.is, Ret.answer] using fit
      refine ⟨.same trivial ?_, by simp [live rfl]⟩
      simp [Multiset.cons_swap (Token.own g) cur.token]
  | rcuDone => exact ⟨.same trivial (by cases spec <;> simp), by simp⟩
  | rcuAgain => exact ⟨.same trivial (by cases spec <;> simp), by simp [live rfl]⟩
  | rcuUnwind => exact absurd rfl (goesOn _)
  | @cacheLoad c p began g =>
      obtain rfl : spec = .load c began := by
        simpa [Frame.accepts, CachePc.accepts, Answer.is, Ret.answer] using fit
      refine ⟨.same trivial ?_, by simp [live rfl]⟩
      simp [Multiset.cons_swap (Token.own g) (Token.own p)]
  | cacheDone => exact ⟨.same trivial (by cases spec <;> simp), by simp⟩
  | @dropPaid c p =>
      obtain ⟨q, since, rfl⟩ : ∃ q since, spec = .walked c q since := by
        simpa [Frame.accepts, DropPc.accepts, Answer.isWalk, Ret.answer] using fit
      cases fits (by simp)
      refine ⟨⟨kept, ?_⟩, by simp⟩
      simpa [Multiset.cons_swap (Token.own p)] using .toldClosing
  | dropDec => exact ⟨.same trivial (by cases spec <;> simp), by simp⟩
  | @intoPaid c p =>
      obtain ⟨q, since, rfl⟩ : ∃ q since, spec = .walked c q since := by
        simpa [Frame.accepts, Answer.isWalk, Ret.answer] using fit
      cases fits (by simp)
      exact ⟨⟨kept, by simpa using .toldClosing⟩, by simp⟩
  | unwind step =>
      have below := below rfl
      cases step with
      | store => exact absurd rfl (goesOn _)
      | loadTmp | load | pay => exact settled.elim
      | _ =>
          simp [Frame.accepts, Answer.is, Answer.isWalk, RcuPc.accepts, PayPc.accepts,
            CasPc.accepts, CachePc.accepts, DropPc.accepts] at below

end steps

-----------------------------------------------------------------------------------------
-- User code
-----------------------------------------------------------------------------------------

theorem Entry.tokens {sh c p frames} (entry : Entry sh c p frames)
    : listed Frame.tokens frames = (p.map Token.own).elim 0 fun tok => {tok} := by
  cases entry <;> simp

theorem Entry.calm {sh : Shared} {tls c p frames} (entry : Entry sh c p frames)
    (live : sh.status c = .live)
    : ∀ fr ∈ frames, fr.Calm sh tls := by
  cases entry <;> simp [live]

theorem CallStep.proto {s tls rest δ kept} (step : CallStep s tls rest δ)
    (keeps : ∀ v u, s.vals v = some u → δ.taken = none → u.token ∈ kept)
    (arg : ∀ p, rest.head? = some (.closure p) → Kept p kept)
    (free : ∀ a, s.addrFree a = true → s.sh.AddrFree a)
    (unused : ∀ c, s.borrowed c = false → δ.old = [] → δ.taken = none → Unused c kept)
    : ProtoMove s.sh
        (listed Frame.tokens δ.old + (tokenShare.entry (δ.taken.map Prod.snd) + kept)) δ.act
        (listed Frame.tokens δ.new + (tokenShare.entry δ.given + kept))
      ∧ ((∀ fr ∈ δ.new, fr.Calm s.sh δ.tls)
          ∨ ∃ p, δ.old = [.closure p] ∧ δ.new = [.ret .plain .unwound]) := by
  have handle {p} : tokenShare.entry (some (.handle p)) = {Token.own p} := rfl
  have guard {g} : tokenShare.entry (some (.guard g)) = {Prot.token g} := rfl
  have none : tokenShare.entry Option.none = 0 := rfl
  cases step with
  | alloc unallocated real word =>
      refine ⟨⟨kept, ?_⟩, .inl (by simp)⟩
      simpa [none, handle] using .alloc unallocated real word
  | null => exact ⟨⟨kept, by simpa [none, handle] using .null⟩, .inl (by simp)⟩
  | @clone v u val =>
      have there : u.token ∈ kept := keeps v u val rfl
      have keeps : Kept u.ptr kept := by
        cases u with
        | handle p => exact .inl there
        | guard g => exact Prot.keeps there
      exact ⟨⟨kept, by simpa [none, handle] using .inc keeps⟩, .inl (by simp)⟩
  | @cloneArg p top =>
      exact ⟨⟨kept, by simpa [none, handle] using .inc (arg p top)⟩, .inl (by simp)⟩
  | dropHandle => exact ⟨.same trivial (by simp [none, handle]), .inl (by simp)⟩
  | dropGuard => exact ⟨.same trivial (by simp [none, guard]), .inl (by simp)⟩
  | new _ there =>
      exact ⟨⟨kept, by simpa [none, handle] using .newCell (free _ there)⟩, .inl (by simp)⟩
  | moveCell live unborrowed there =>
      refine ⟨⟨kept, ?_⟩, .inl (by simp)⟩
      simpa [none] using .moveCell live (unused _ unborrowed rfl rfl) (free _ there)
  | start live entry =>
      exact ⟨.same trivial (by simp [none, entry.tokens]), .inl (entry.calm live)⟩
  | startWith _ _ live entry =>
      exact ⟨.same trivial (by simp [none, handle, entry.tokens]), .inl (entry.calm live)⟩
  | guardIntoInner => exact ⟨.same trivial (by simp [none, guard]), .inl (by simp)⟩
  | guardFromInner =>
      exact ⟨.same trivial (by simp [guard, handle, Prot.token]), .inl (by simp)⟩
  | intoInner live unborrowed there =>
      refine ⟨⟨kept, ?_⟩, .inl (by simp)⟩
      simpa [none] using
        .closeCell live (unused _ unborrowed rfl rfl) (.inr (free _ there))
  | dropCell live unborrowed =>
      refine ⟨⟨kept, ?_⟩, .inl (by simp)⟩
      simpa [none] using
        .closeCell live (unused _ unborrowed rfl rfl) (.inl rfl)
  | closureRet => exact ⟨.same trivial (by simp [none, handle]), .inl (by simp)⟩
  | closurePanic => exact ⟨.same trivial (by simp [none]), .inr ⟨_, rfl, rfl⟩⟩
  | destructorRet => exact ⟨⟨kept, by simpa [none] using .dealloc⟩, .inl (by simp)⟩
  | exit =>
      refine ⟨.same trivial ?_, .inl ?_⟩
      · cases tls.node <;> simp [none]
      · cases tls.node <;> simp

end ArcSwap
