import ArcSwap.Proofs.DebtRuns

/-! The helping protocol in careful runs. `help` leaves no transaction behind that matters
to the writer, and the envelope that was given to a reader is the reader's alone until it
has been read.
-/

namespace ArcSwap

open Assignments Bags GuardedRuns

-----------------------------------------------------------------------------------------
-- Calls of help and fallback transactions
-----------------------------------------------------------------------------------------

/-- The call of `Slots::help` that a walk is in: the node, and when it was called. A walk
that stands before the call makes it now.
-/
def PayPc.inHelp (now : Nat) : PayPc → Option (NodeId × Nat)
  | .help n _ => some (n, now)
  | .activeLoad h | .recheck h | .replaceWait h _ | .theirSpace h _ | .mySpace h _ _
  | .fillSpace h _ _ _ | .offer h _ _ _ | .exchange h _ | .lostWait h =>
      some (h.who, h.entered)
  | _ => none

/-- The transaction that a load has published and not ended: its storage, the node and the
generation.
-/
def Frame.transaction : Frame → Option (CellId × NodeId × Nat)
  | .load c _ _ (.candidate n gen) | .load c _ _ (.fill n gen _)
  | .load c _ _ (.confirm n gen _) => some (c, n, gen)
  | _ => none

/-- The step leads from the frame `fr`, at the top of the stack or below the result that it
waits for, to the frame `fr'` at the top.
-/
structure Turns (cfg : Config) (s : State) (l : Label) (s' : State) (fr fr' : Frame) : Prop where
  taken : step cfg s l = some s'
  place
    : ∃ above below, (s.thr l.thread).stack = above ++ fr :: below
      ∧ (s'.thr l.thread).stack = fr' :: below

/-- Every fallback transaction on the storage at the address that was published on the node
before `entered` has been ended by its reader or carries a replacement.
-/
def State.Settled (s : State) (who : NodeId) (addr entered : Nat) : Prop :=
  ∀ t < s.nThr, ∀ fr ∈ (s.thr t).stack, ∀ c gen, fr.transaction = some (c, who, gen)
    → s.sh.cellAddr c = addr → s.sh.txTime who < entered
    → tagOf (s.sh.control who) = REPLACEMENT_TAG

/-- The step brings no other frames than that one. -/
theorem Turns.inside {cfg s l s' fr fr'} (turns : Turns cfg s l s' fr fr') {t f}
    (there : f ∈ (s'.thr t).stack)
    : f ∈ (s.thr t).stack ∨ f = fr' := by
  obtain ⟨taken, above, below, before, after⟩ := turns
  obtain ⟨δ, rest, _, _, _, rfl⟩ := step_moves taken
  by_cases eq : t = l.thread
  · subst eq
    rw [after] at there
    rcases List.mem_cons.mp there with same | inside
    · exact .inr same
    · exact .inl (before ▸ by simp [inside])
  · rw [State.after_thr, Function.update_of_ne eq] at there
    exact .inl there

theorem Turns.threads {cfg s l s' fr fr'} (turns : Turns cfg s l s' fr fr') : s'.nThr = s.nThr := by
  obtain ⟨δ, rest, _, _, _, rfl⟩ := step_moves turns.taken
  exact State.after_nThr _ _ _ _

section transactions

variable {s : State}

/-- A load in a transaction is in a session on its node. -/
theorem Frame.tx_of_transaction {fr : Frame} {c n gen} (tx : fr.transaction = some (c, n, gen))
    : ∃ ses, .session n ses ∈ fr.tokens ∧ ∀ sh, ses.Ok sh n → InTx sh n c gen := by
  unfold Frame.transaction at tx
  split at tx <;> cases tx
  case h_1 => exact ⟨.published c gen, by simp [tokens, LoadPc.tokens], fun _ ok => ok.1⟩
  case h_2 p => exact ⟨.candidate c gen p, by simp [tokens, LoadPc.tokens], fun _ ok => ok.1⟩
  case h_3 p => exact ⟨.filled c gen p, by simp [tokens, LoadPc.tokens], fun _ ok => ok.1⟩

theorem State.TxOk.transaction (ok : s.TxOk) {t fr c n gen} (member : t < s.nThr)
    (inside : fr ∈ (s.thr t).stack) (tx : fr.transaction = some (c, n, gen))
    : InTx s.sh n c gen := by
  obtain ⟨ses, held, knows⟩ := Frame.tx_of_transaction tx
  apply knows
  refine ok.tx.sessions.ok n ses (mem_sessions.mpr ?_)
  exact State.mem_shares_of_frame member inside held

/-- Where no older transaction is running, the older ones are settled. -/
theorem State.TxOk.settled (ok : s.TxOk) {who addr entered}
    (none : ¬ s.sh.RunsOld who addr entered)
    : s.Settled who addr entered := by
  intro t member fr inside c gen tx same old
  have tx := ok.transaction member inside tx
  rcases tx.control with ⟨running, _⟩ | ⟨replaced, _⟩
  · exact absurd ⟨running ▸ tx.tag, tx.addr.trans same, old⟩ none
  · exact replaced

end transactions

-----------------------------------------------------------------------------------------
-- When help returns
-----------------------------------------------------------------------------------------

section returns

variable {cfg : Config} {s s' : State} {l : Label} {c : CellId} {p : Ptr} {since : Nat}
  {loc loc' : Loc} {pc pc' : PayPc}

/-- The step that ends a call of `help`, as a step of the walk. -/
theorem Turns.returns {who entered n period}
    (turns : Turns cfg s l s' (.pay c p since loc pc) (.pay c p since loc' (.slots n period 0)))
    (call : pc.inHelp s.sh.time = some (who, entered))
    : ∃ act pos, pos.inHelp s.sh.time = some (who, entered)
        ∧ .walk c p since pos ∈ pc.tokens c p since
        ∧ PosStep s.sh c p pos act (.slots n 0)
        ∧ (act = .nop ∨ ∃ m their, act = .setOffer m their) ∧ s'.sh = s.sh.after act := by
  obtain ⟨taken, above, below, before, after⟩ := turns
  obtain ⟨δ, rest, member, top, move, rfl⟩ := step_moves taken
  rw [State.after_thr, Function.update_self] at after
  have moved : Frame.pay c p since loc pc ≠ .pay c p since loc' (.slots n period 0) := by
    rintro ⟨⟩
    cases call
  obtain ⟨old, new, rfl⟩ := move.replaced (top.symm.trans before) after moved nofun
  have single {f g : Frame} (eq : [f] = above ++ [g]) : f = g := by
    cases above with
    | nil => exact (List.cons.inj eq).1
    | cons _ above => simp at eq
  cases move with
  | deliver => cases new
  | call _ step => cases step <;> first | cases single old | simp at old
  | frame step =>
      cases single old
      cases step with
      | pay step =>
          cases step with
          | help _ dispatch =>
              cases call
              cases dispatch with
              | slots other =>
                  cases new
                  exact ⟨.nop, .node _, rfl, by simp [PayPc.tokens],
                    .help rfl rfl rfl rfl (.slots other), .inl rfl, rfl⟩
              | _ => cases new
          | unchanged same =>
              cases call
              cases new
              exact ⟨.nop, .differs _, rfl,
                by simp [PayPc.tokens], .unchanged same, .inl rfl, rfl⟩
          | @again h _ other dispatch =>
              cases call
              cases dispatch with
              | slots idle =>
                  cases new
                  exact ⟨.nop, .differs h, rfl, by simp [PayPc.tokens],
                    .again other (.slots idle), .inl rfl, rfl⟩
              | _ => cases new
          | exchange =>
              cases call
              cases new
              exact ⟨_, .handed _ _, rfl,
                by simp [PayPc.tokens], .exchange, .inr ⟨_, _, rfl⟩, rfl⟩
          | _ => first | (cases call; done) | cases new
  | @resume spec v caller _ _ step =>
      have caller_eq : caller = .pay c p since loc pc := by
        have old : [Frame.ret spec v] ++ [caller] = above ++ [.pay c p since loc pc] := old
        exact (List.cons.inj (List.append_inj' old rfl).2).1
      subst caller_eq
      cases step with
      | payLost dispatch =>
          cases call
          cases dispatch with
          | slots other =>
              cases new
              exact ⟨.nop, .lost _, rfl,
                by simp [PayPc.tokens], .retry (.slots other), .inl rfl, rfl⟩
          | _ => cases new
      | payDec => cases call
      | unwind step => cases step <;> cases new
      | _ => cases new

/-- When `help` returns, every transaction on its storage that was published before the call
has been ended by its reader or carries a replacement. When it gives up on an unchanged
word, the transaction that runs is for another storage.
-/
theorem help_leaves_nothing {n who entered m period}
    (reached : Reaches (step cfg) (Careful cfg) (State.init n) s)
    (turns : Turns cfg s l s' (.pay c p since loc pc) (.pay c p since loc' (.slots m period 0)))
    (call : pc.inHelp s.sh.time = some (who, entered))
    : s'.Settled who (s'.sh.cellAddr c) entered
      ∧ ∀ h, pc = .recheck h → s.sh.control who = h.control
          → ∀ t < s'.nThr, ∀ fr ∈ (s'.thr t).stack, ∀ d,
              fr.transaction = some (d, who, s'.sh.control who)
              → s'.sh.cellAddr d ≠ s'.sh.cellAddr c := by
  have ok := txOk_of_reaches (fun _ _ => And.left) reached
  have pass := (help_of_reaches reached).pass
  obtain ⟨act, pos, call', held, move, kind, memory⟩ := turns.returns call
  obtain ⟨above, below, before, _⟩ := turns.place
  have member : l.thread < s.nThr := by
    obtain ⟨_, _, member, _⟩ := step_moves turns.taken
    exact member
  have there : .pay c p since loc pc ∈ (s.thr l.thread).stack := by
    rw [before]
    exact List.mem_append_right _ (.head _)
  have walk {pos} (held : .walk c p since pos ∈ pc.tokens c p since)
      : .walk c p since pos ∈ s.tokens :=
    State.mem_shares_of_frame (S := tokenShare) member there held
  -- The last access of `help` does not touch what the transactions are about.
  have control : s'.sh.control = s.sh.control := by
    rcases kind with rfl | ⟨_, _, rfl⟩ <;> rw [memory] <;> rfl
  have times : s'.sh.txTime = s.sh.txTime := by
    rcases kind with rfl | ⟨_, _, rfl⟩ <;> rw [memory] <;> rfl
  have addrs : s'.sh.cellAddr = s.sh.cellAddr := by
    rcases kind with rfl | ⟨_, _, rfl⟩ <;> rw [memory] <;> rfl
  have inside {t fr d gen} (there : fr ∈ (s'.thr t).stack)
      (tx : fr.transaction = some (d, who, gen))
      : fr ∈ (s.thr t).stack := by
    apply (turns.inside there).resolve_right
    rintro rfl
    cases tx
  rw [State.Settled, control, times, addrs, turns.threads]
  refine ⟨?_, ?_⟩
  · intro t member' fr there d gen tx
    exact ok.settled (pass.returned (walk held) move call') t member' fr (inside there tx) d gen tx
  · rintro h rfl same t member' fr there d tx
    cases call
    have knows : (Pos.differs h).Knows s.sh c :=
      pass.pos c p since _ (walk (by simp [PayPc.tokens]))
    have tx := ok.transaction member' (inside there tx) tx
    exact tx.addr ▸ knows.2 same

end returns

/-- A reader without fast slots publishes its generation and waits, and a writer helps it. -/
def helpedSchedule : List Label :=
  [.call 0 (.null 0), .call 0 (.new 0 100 false), .call 0 (.load 0)]
    ++ List.replicate 7 (.run 0 false)
    ++ [.call 1 (.null 0), .call 1 (.store 0 1)]
    ++ List.replicate 40 (.run 1 false)

set_option maxRecDepth 4000 in
theorem help_leaves_nothing_handed
    : ∃ s : State, s.Settled 0 (s.sh.cellAddr 0) 35 ∧ s.sh.txTime 0 = 9
        ∧ (s.thr 0).stack = [.load 0 2 .tls (.candidate 0 6)] := by
  let h : Helping := ⟨0, 0, 1, 6, 35, 1, 35⟩
  let below : List Frame := [.swapWait 0, .storeWait 0]
  let view (s s' : State) := ((s.thr 1).stack, (s'.thr 1).stack, (s'.thr 0).stack, s'.sh.txTime 0)
  have ran
      : ((runChecked (step ⟨64, true⟩) (careful ⟨64, true⟩)
          (State.init 2) helpedSchedule).bind
            fun s => (step ⟨64, true⟩ s (.run 1 false)).map fun s' => view s s')
          = some (.pay 0 ⟨0, 0, 0⟩ 13 .tls (.exchange h 4) :: below,
              .pay 0 ⟨0, 0, 0⟩ 13 .tls (.slots 0 0 0) :: below,
              [.load 0 2 .tls (.candidate 0 6)], 9) := by
    decide +kernel
  obtain ⟨s, ran, after⟩ := Option.bind_eq_some_iff.mp ran
  obtain ⟨s', taken, eq⟩ := Option.map_eq_some_iff.mp after
  simp only [view, Prod.mk.injEq] at eq
  obtain ⟨before, after, reader, published⟩ := eq
  have reached := reaches_of_runChecked (fun _ _ => careful_sound) ran
  have turns : Turns ⟨64, true⟩ s (.run 1 false) s' _ _ := ⟨taken, [], below, before, after⟩
  exact ⟨s', (help_leaves_nothing reached turns rfl).1, published, reader⟩

-----------------------------------------------------------------------------------------
-- Envelopes
-----------------------------------------------------------------------------------------

/-- The envelope that a reader has taken from its control word, or that a helper has got in
exchange for its own, before it is put in place.
-/
def Frame.envelope : Frame → Option (NodeId × Nat)
  | .load _ _ _ (.envelope n _ e _) | .load _ _ _ (.restore n _ e _) => some (n, e)
  | .pay _ _ _ _ (.exchange h their) => some (h.self, their)
  | _ => none

/-- The envelope of a node. It is named by the control word when a helper has put it there,
then by the reader, else by `space_offer`, unless the node's owner is exchanging it.
-/
inductive State.HasEnvelope (s : State) (n : NodeId) : Nat → Prop
  | given (tag : tagOf (s.sh.control n) = REPLACEMENT_TAG)
    : s.HasEnvelope n (s.sh.control n - REPLACEMENT_TAG)
  | taken {t fr e} (member : t < s.nThr) (inside : fr ∈ (s.thr t).stack)
    (holds : fr.envelope = some (n, e))
    : s.HasEnvelope n e
  | offered (tag : tagOf (s.sh.control n) ≠ REPLACEMENT_TAG)
    (none : ∀ t < s.nThr, ∀ fr ∈ (s.thr t).stack, ∀ e, fr.envelope ≠ some (n, e))
    : s.HasEnvelope n (s.sh.spaceOffer n)

/-- The envelope was given to the reader of the node, which has not read it yet. -/
inductive State.Unread (s : State) (n : NodeId) : Nat → Prop
  | given (tag : tagOf (s.sh.control n) = REPLACEMENT_TAG)
    : s.Unread n (s.sh.control n - REPLACEMENT_TAG)
  | taken {t c began loc p e r} (member : t < s.nThr)
    (inside : .load c began loc (.envelope n p e r) ∈ (s.thr t).stack)
    : s.Unread n e

/-- The session of a frame that holds an envelope. -/
theorem Frame.session_of_envelope {fr : Frame} {n e} (holds : fr.envelope = some (n, e))
    : (∃ c p r, .session n (.helped c p e r) ∈ fr.tokens)
      ∨ .session n (.exchanging e) ∈ fr.tokens := by
  unfold Frame.envelope at holds
  split at holds <;> cases holds
  case h_1 c _ _ p r => exact .inl ⟨c, p, r, by simp [tokens, LoadPc.tokens]⟩
  case h_2 c _ _ p r => exact .inl ⟨c, p, r, by simp [tokens, LoadPc.tokens]⟩
  case h_3 h => exact .inr (by simp [tokens, PayPc.tokens])

/-- The frame whose session holds an envelope. -/
theorem Frame.envelope_of_session {fr : Frame} {n ses} (held : .session n ses ∈ fr.tokens)
    : (∀ c p e r, ses = .helped c p e r → fr.envelope = some (n, e))
      ∧ ∀ their, ses = .exchanging their → fr.envelope = some (n, their) := by
  cases fr with
  | load c began loc pc =>
      cases pc <;> simp [tokens, LoadPc.tokens] at held <;> obtain ⟨rfl, rfl⟩ := held <;>
        simp +contextual [envelope]
  | pay c p since loc pc =>
      cases pc <;> simp [tokens, PayPc.tokens] at held <;> obtain ⟨rfl, rfl⟩ := held <;>
        simp [envelope]
  | ret spec v => cases v <;> cases spec <;> simp [tokens, Ret.tokens] at held
  | into g _ pc => cases pc <;> simp [tokens, IntoPc.tokens] at held
  | cas _ _ _ _ pc => cases pc <;> simp [tokens, CasPc.tokens] at held
  | rcu _ _ pc => cases pc <;> simp [tokens, RcuPc.tokens] at held
  | cache _ _ pc => cases pc <;> simp [tokens, CachePc.tokens] at held
  | cellDrop _ pc => cases pc <;> simp [tokens, DropPc.tokens] at held
  | cellInto _ p => cases p <;> simp [tokens] at held
  | _ => simp [tokens] at held

section envelopes

variable {s : State}

/-- What the session of a frame says about the envelope of its node. -/
theorem HelpInv.envelope (help : HelpInv s.sh s.tokens) {t fr n ses} (member : t < s.nThr)
    (inside : fr ∈ (s.thr t).stack) (held : .session n ses ∈ fr.tokens)
    : EnvOk s.sh n (some ses) :=
  help.env.nodes.all n (some ses)
    (mem_sessions.mpr (State.mem_shares_of_frame (S := tokenShare) member inside held))

/-- A node whose control word names no replacement has not been given anything. -/
theorem SessionInv.noGift {sh : Shared} {S : Multiset (NodeId × Session)}
    (inv : SessionInv sh S) {n} (tag : tagOf (sh.control n) ≠ REPLACEMENT_TAG)
    : sh.gift n = none := by
  by_cases busy : n ∈ S.map Prod.fst
  · obtain ⟨⟨n, ses⟩, inside, rfl⟩ := Multiset.mem_map.mp busy
    have ok := inv.ok n ses inside
    have running {c gen} (tx : InTx sh n c gen) : sh.gift n = none := by
      rcases tx.control with ⟨_, none⟩ | ⟨replaced, _⟩
      · exact none
      · exact absurd replaced tag
    cases ses with
    | published | candidate | filled => exact running ok.1
    | ended | helped => exact ok.2.1
    | _ => exact ok.1.gift
  · exact (inv.quiet n busy).gift

/-- The envelope of a node is the one that the exchanges have left it. -/
theorem State.HasEnvelope.eq {n e} (has : s.HasEnvelope n e) (ok : s.TxOk)
    (help : HelpInv s.sh s.tokens)
    : e = s.sh.env n := by
  cases has with
  | given tag =>
      obtain ⟨ses, c, gen, given, _, _, _, _, control, _⟩ := help.replaced ok.tx.sessions tag
      rw [control, Nat.add_sub_cancel]
  | taken member inside holds =>
      rcases Frame.session_of_envelope holds with ⟨c, p, r, held⟩ | held
      · exact (help.envelope member inside held).1.symm
      · exact Eq.symm (help.envelope member inside held)
  | offered tag none =>
      have noGift := ok.tx.sessions.noGift tag
      have plain (enveloped : Enveloped s.sh n) : s.sh.spaceOffer n = s.sh.env n :=
        enveloped.offer noGift
      by_cases busy : n ∈ (sessions s.tokens).map Prod.fst
      · obtain ⟨⟨n, ses⟩, inside, rfl⟩ := Multiset.mem_map.mp busy
        have env := help.env.nodes.all n (some ses) inside
        obtain ⟨t, member, fr, there, held⟩ : ∃ t < s.nThr, ∃ fr ∈ (s.thr t).stack,
            .session n ses ∈ fr.tokens := by
          rcases State.mem_tokens (mem_sessions.mp inside) with frame | ⟨_, _, u, _, value⟩
          · exact frame
          · cases u <;> simp [UserVal.token] at value
        obtain ⟨helped, exchanging⟩ := Frame.envelope_of_session held
        cases ses with
        | helped c p e r => exact absurd (helped c p e r rfl) (none t member fr there e)
        | exchanging their => exact absurd (exchanging their rfl) (none t member fr there their)
        | envelope mine => exact env.2.trans env.1.symm
        | offering mine r => exact env.2.1.trans env.1.symm
        | _ => exact plain env
      · exact plain (help.env.nodes.all n Option.none busy)

/-- Every node has an envelope. -/
theorem State.hasEnvelope (s : State) (n : NodeId) : ∃ e, s.HasEnvelope n e := by
  by_cases tag : tagOf (s.sh.control n) = REPLACEMENT_TAG
  · exact ⟨_, .given tag⟩
  · by_cases taken : ∃ t < s.nThr, ∃ fr ∈ (s.thr t).stack, ∃ e, fr.envelope = some (n, e)
    · obtain ⟨t, member, fr, inside, e, holds⟩ := taken
      exact ⟨e, .taken member inside holds⟩
    · refine ⟨_, .offered tag ?_⟩
      intro t member fr inside e holds
      exact taken ⟨t, member, fr, inside, e, holds⟩

/-- The session of a reader that has not read its envelope. -/
theorem State.Unread.session {n e} (unread : s.Unread n e) (ok : s.TxOk)
    (help : HelpInv s.sh s.tokens)
    : s.sh.env n = e
      ∧ (∃ ses, .session n ses ∈ s.tokens ∧ ∀ mine, ses ≠ .envelope mine)
      ∧ ∃ given, s.sh.helps n = [given]
          ∧ (s.sh.handover (handoverNode e)).addr = given.val.addr
          ∧ (s.sh.handover (handoverNode e)).prov = given.val.prov := by
  cases unread with
  | given tag =>
      obtain ⟨ses, c, gen, given, inside, tx, helps, _, control, content⟩ :=
        help.replaced ok.tx.sessions tag
      have env : s.sh.env n = s.sh.control n - REPLACEMENT_TAG := by
        rw [control, Nat.add_sub_cancel]
      refine ⟨env, ⟨ses, inside, ?_⟩, given, helps, ?_⟩
      · rintro mine rfl
        cases tx
      · rw [← env, content]
        exact ⟨rfl, rfl⟩
  | @taken t c began loc p _ r member inside =>
      have held : .session n (.helped c p e r)
        ∈ (Frame.load c began loc (.envelope n p e r)).tokens := by
        simp [Frame.tokens, LoadPc.tokens]
      have there : .session n (.helped c p e r) ∈ s.tokens :=
        State.mem_shares_of_frame (S := tokenShare) member inside held
      obtain ⟨env, addr, prov⟩ := help.envelope member inside held
      obtain ⟨given, helps, _, addr', prov'⟩ :=
        help.hands.all n (some (.helped c p e r)) (mem_sessions.mpr there)
      exact ⟨env, ⟨_, there, by simp⟩, given, helps, addr.trans addr', prov.trans prov'⟩

/-- Nobody writes to an envelope that has not been read. -/
theorem State.Unread.exclusive {n e} (unread : s.Unread n e) (ok : s.TxOk)
    (help : HelpInv s.sh s.tokens) {t c p since loc h r their mine} (member : t < s.nThr)
    (writer : .pay c p since loc (.fillSpace h r their mine) ∈ (s.thr t).stack)
    : handoverNode mine ≠ handoverNode e := by
  obtain ⟨env, ⟨ses, inside, other⟩, _⟩ := unread.session ok help
  have held : .session h.self (.envelope mine)
      ∈ (Frame.pay c p since loc (.fillSpace h r their mine)).tokens := by
    simp [Frame.tokens, PayPc.tokens]
  have there : .session h.self (.envelope mine) ∈ s.tokens :=
    State.mem_shares_of_frame (S := tokenShare) member writer held
  obtain ⟨env', _⟩ := help.envelope member writer held
  have bound {m ses} (inside : .session m ses ∈ s.tokens) : m < s.sh.nNodes :=
    ok.pool.pool.list.bound (ok.tx.walks.linked m ses inside)
  rw [← env, ← env']
  refine help.env.map.apart (bound there) (bound inside) ?_
  rintro rfl
  exact other mine (ok.tx.sessions.unique inside there)

/-- Envelopes are written by helpers, apart from the ones of new nodes. -/
theorem Move.handover {cfg tls rest δ} (move : Move cfg s tls rest δ)
    : (∀ k, k ≠ s.sh.nNodes → (δ.act.exec s.sh).handover k = s.sh.handover k)
      ∨ ∃ c p since loc h r their mine,
          δ.old = [.pay c p since loc (.fillSpace h r their mine)]
          ∧ ∀ k, k ≠ handoverNode mine
            → (δ.act.exec s.sh).handover k = s.sh.handover k := by
  by_cases writes : ∃ mine q, δ.act = .setEnvelope mine q
  · right
    obtain ⟨mine, q, eq⟩ := writes
    have inc {p} (eq : incAct p = .setEnvelope mine q) : False := by
      unfold incAct at eq
      split at eq <;> cases eq
    have other (k) (other : k ≠ handoverNode mine)
        : (δ.act.exec s.sh).handover k = s.sh.handover k := by
      rw [eq]
      exact Function.update_of_ne other _ _
    cases move with
    | resume | deliver => cases eq
    | frame step =>
        cases step with
        | get step => cases step <;> cases eq
        | cool step => cases step <;> cases eq
        | dec step => cases step <;> cases eq
        | into step => cases step <;> first | exact (inc eq).elim | cases eq
        | guardDrop step => cases step <;> cases eq
        | load step => cases step <;> first | exact (inc eq).elim | cases eq
        | pay step =>
            cases step with
            | fillSpace | envelopeTag =>
                cases eq
                exact ⟨_, _, _, _, _, _, _, _, rfl, other⟩
            | inc | bump => exact (inc eq).elim
            | _ => cases eq
        | _ => cases eq
    | call below step =>
        cases step with
        | clone | cloneArg => exact (inc eq).elim
        | _ => cases eq
  · left
    intro k old
    cases eq : δ.act with
    | setEnvelope mine q => exact absurd ⟨mine, q, eq⟩ writes
    | newNode => exact Function.update_of_ne old _ _
    | _ => rfl

/-- An envelope that has not been read stays as it is. -/
theorem State.Unread.kept {cfg l s' n e} (unread : s.Unread n e) (ok : s.TxOk)
    (help : HelpInv s.sh s.tokens) (taken : step cfg s l = some s')
    : s'.sh.handover (handoverNode e) = s.sh.handover (handoverNode e) := by
  obtain ⟨δ, rest, member, top, move, rfl⟩ := step_moves taken
  rcases move.handover with others | ⟨c, p, since, loc, h, r, their, mine, old, others⟩
  · apply others
    obtain ⟨env, ⟨ses, inside, _⟩, _⟩ := unread.session ok help
    obtain ⟨k, linked, addr⟩ := help.env.map.cells n (ok.tx.walks.linked n ses inside)
    rw [← env, addr, handoverNode_addr]
    exact Nat.ne_of_lt (ok.pool.pool.list.bound linked)
  · apply others
    have writer : .pay c p since loc (.fillSpace h r their mine) ∈ (s.thr l.thread).stack := by
      rw [top, old]
      exact .head _
    exact (unread.exclusive ok help member writer).symm

end envelopes

/-- The nodes of the list have different envelopes, the ones that were made for these nodes,
and an envelope in place. An envelope that was given to a reader holds what its one helper
has put there, and nobody writes to it, until the reader has read it.
-/
theorem envelopes_unshared {cfg n s}
    (reached : Reaches (step cfg) (Careful cfg) (State.init n) s)
    : (∀ m e, s.HasEnvelope m e ↔ e = s.sh.env m)
      ∧ Set.BijOn s.sh.env {m | s.sh.linked m = true}
          (handoverAddr '' {m | s.sh.linked m = true})
      ∧ (∀ m, s.sh.linked m = true → s.sh.spaceOffer m ≠ 0)
      ∧ ∀ m e, s.Unread m e
          → (∃ given, s.sh.helps m = [given]
              ∧ (s.sh.handover (handoverNode e)).addr = given.val.addr
              ∧ (s.sh.handover (handoverNode e)).prov = given.val.prov)
            ∧ (∀ t < s.nThr, ∀ c p since loc h r their,
                .pay c p since loc (.fillSpace h r their e) ∉ (s.thr t).stack)
            ∧ ∀ l s', step cfg s l = some s'
                → s'.sh.handover (handoverNode e) = s.sh.handover (handoverNode e) := by
  have ok := txOk_of_reaches (fun _ _ => And.left) reached
  have help := help_of_reaches reached
  have list := ok.pool.pool.list
  refine ⟨?_, help.env.map.bijective list, ?_, ?_⟩
  · intro m e
    refine ⟨fun has => has.eq ok help, ?_⟩
    rintro rfl
    obtain ⟨e, has⟩ := s.hasEnvelope m
    exact has.eq ok help ▸ has
  · intro m linked
    obtain ⟨k, offer⟩ := help.env.offers m (list.bound linked)
    rw [offer, handoverAddr]
    exact Nat.mul_ne_zero (by decide) (Nat.succ_ne_zero k)
  · intro m e unread
    refine ⟨(unread.session ok help).2.2, ?_, fun l s' taken => unread.kept ok help taken⟩
    intro t member c p since loc h r their writer
    exact unread.exclusive ok help member writer rfl

set_option maxRecDepth 4000 in
/-- The envelope of the helper, at the moment it has been given to the reader. -/
theorem envelopes_unshared_handed
    : ∃ s : State, s.sh.control 0 = 9 ∧ ∃ given, s.sh.helps 0 = [given]
        ∧ (s.sh.handover 1).addr = given.val.addr
          ∧ (s.sh.handover 1).prov = given.val.prov := by
  have ran
      : (runChecked (step ⟨64, true⟩) (careful ⟨64, true⟩)
          (State.init 2) helpedSchedule).map
            (fun s => s.sh.control 0)
          = some 9 := by
    decide +kernel
  obtain ⟨s, ran, control⟩ := Option.map_eq_some_iff.mp ran
  have reached := reaches_of_runChecked (fun _ _ => careful_sound) ran
  have unread : s.Unread 0 (s.sh.control 0 - REPLACEMENT_TAG) := .given (by rw [control]; rfl)
  rw [control] at unread
  exact ⟨s, control, ((envelopes_unshared reached).2.2.2 0 8 unread).1⟩

end ArcSwap
