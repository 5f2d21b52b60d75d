import ArcSwap.Proofs.Envelopes

/-! Hand-overs from helpers to readers. A transaction is ended by its reader, or by one
helper with a pointer from the reader's storage, and that is what the reader gets.
-/

namespace ArcSwap

open Assignments

-----------------------------------------------------------------------------------------
-- Who has ended a transaction
-----------------------------------------------------------------------------------------

/-- The transaction is running, or one helper has ended it with a pointer from `c`. -/
def Handed (sh : Shared) (n : NodeId) (c : CellId) (gen : Nat) : Prop :=
  sh.control n = gen ∧ sh.helps n = []
    ∨ ∃ given, sh.helps n = [given] ∧ sh.gift n = some given.val ∧ given.cell = c

/-- What holds of the hand-overs into the last transaction of a node. -/
def HandOk (sh : Shared) (n : NodeId) : Option Session → Prop
  | some (.published c gen) | some (.candidate c gen _) | some (.filled c gen _) =>
      Handed sh n c gen
  | some (.helped c _ _ g) =>
      ∃ given, sh.helps n = [given] ∧ given.cell = c ∧ g.addr = given.val.addr
        ∧ g.prov = given.val.prov
  | _ => True

section node

variable {sh sh' : Shared} {n : NodeId} {v : Option Session}

theorem HandOk.keep (ok : HandOk sh n v) (control : sh'.control n = sh.control n)
    (helps : sh'.helps n = sh.helps n) (gift : sh'.gift n = sh.gift n)
    : HandOk sh' n v := by
  have handed {c gen} (ok : Handed sh n c gen) : Handed sh' n c gen := by
    rw [Handed, control, helps, gift]
    exact ok
  cases v with
  | none => trivial
  | some ses =>
      cases ses with
      | published | candidate | filled => exact handed ok
      | helped c p e g =>
          obtain ⟨given, same, rest⟩ := ok
          exact ⟨given, helps.trans same, rest⟩
      | _ => trivial

/-- A hand-over into a running transaction. -/
theorem SessionInv.handOver {S : Multiset (NodeId × Session)} (inv : SessionInv sh S)
    (has : Has S n v) (ok : HandOk sh n v) (gen : tagOf (sh.control n) = GEN_TAG) {c}
    (cell : ∀ d, sh.status d = .live → sh.activeAddr n = sh.cellAddr d → c = d)
    {given : HelpRec} (same : given.cell = c) (helps : sh'.helps n = given :: sh.helps n)
    (gift : sh'.gift n = some given.val)
    : HandOk sh' n v := by
  have idle {P : Prop} (control : sh.control n = IDLE) : P := by
    rw [control] at gen
    cases gen
  have handed {d g} (tx : InTx sh n d g) (handed : Handed sh n d g) : Handed sh' n d g := by
    rcases handed with ⟨_, empty⟩ | ⟨other, _, given', _⟩
    · exact .inr ⟨given, by rw [helps, empty], gift, same.trans (cell d tx.live tx.addr)⟩
    · rcases tx.control with ⟨_, none⟩ | ⟨tag, _⟩
      · rw [none] at given'
        cases given'
      · rw [gen] at tag
        cases tag
  cases v with
  | none => trivial
  | some ses =>
      have there := inv.ok n ses has
      cases ses with
      | published | candidate | filled => exact handed there.1 ok
      | ended | helped => exact idle there.1
      | _ => trivial

end node

section step

variable {sh : Shared} {r old new : Tokens} {act : Act}

/-- The access does not concern the hand-overs of the node. -/
def Act.sparesHand (sh : Shared) (n : NodeId) : Act → Prop
  | .publish m _ | .goIdle m | .handOver m _ _ _ => m ≠ n
  | .newNode => n ≠ sh.nNodes
  | _ => True

theorem HandOk.spared {n v} (ok : HandOk sh n v) (act : Act) (spares : act.sparesHand sh n)
    : HandOk (act.exec sh) n v := by
  cases act with
  | publish m | goIdle m | handOver m =>
      have other : n ≠ m := Ne.symm spares
      exact ok.keep (by simp [Act.exec, other]) (by simp [Act.exec, other])
        (by simp [Act.exec, other])
  | newNode =>
      have other : n ≠ sh.nNodes := spares
      exact ok.keep (by simp [Act.exec, other]) rfl (by simp [Act.exec, other])
  | _ => exact ok.keep rfl rfl rfl

/-- A step hands at most one pointer over into every transaction. -/
theorem ProtoStep.handovers (step : ProtoStep sh r old act new) (list : sh.ListOk)
    (inv : TxInv sh old) (pass : PassInv sh old) (env : EnvInv sh old)
    (hands : Assigns (HandOk sh) (ArcSwap.sessions old))
    : Assigns (HandOk (act.exec sh)) (ArcSwap.sessions new) := by
  have sess := inv.sessions
  have spared {S : Multiset (NodeId × Session)} (spares : ∀ n, act.sparesHand sh n) (n v)
      (_ : Has S n v) (ok : HandOk sh n v)
      : HandOk (act.exec sh) n v :=
    ok.spared act (spares n)
  have others {S : Multiset (NodeId × Session)} {n}
      (spares : ∀ m, m ≠ n → act.sparesHand sh m)
      (m v) (other : m ≠ n) (_ : Has S m v) (ok : HandOk sh m v)
      : HandOk (act.exec sh) m v :=
    ok.spared act (spares m other)
  cases step with
  | quiet quiet => exact hands.keep (spared fun n => by cases act <;> trivial)
  | inc =>
      simp only [sessions_own] at hands ⊢
      exact hands.keep (spared fun n => by unfold incAct; split <;> trivial)
  | newNode =>
      refine hands.keep ?_
      intro n v has ok
      by_cases eq : n = sh.nNodes
      · cases v with
        | none => trivial
        | some ses =>
            have linked := inv.walks.linked n ses (mem_sessions.mp has)
            exact absurd eq (Nat.ne_of_lt (list.bound linked))
      · exact ok.spared .newNode eq
  | scan _ idle =>
      simp only [sessions_seen, sessions_session] at hands ⊢
      exact hands.start idle.absent (others fun _ _ => trivial) trivial
  | announce _ idle =>
      simp only [sessions_session] at hands ⊢
      exact hands.start idle.absent (others fun _ _ => trivial) trivial
  | mySpace idle =>
      simp only [sessions_session, sessions_walk] at hands ⊢
      exact hands.start idle.absent (others fun _ _ => trivial) trivial
  | confirmFast | payBack | adopt | ownPaid | ownWasPaid | unusedPaid | unusedWasPaid | lose
  | exchange =>
      simp only [sessions_session, sessions_pending, sessions_debt, sessions_own, sessions_walk]
        at hands ⊢
      exact hands.stop (others fun _ _ => trivial) trivial
  | register | restore | fillSpace =>
      simp only [sessions_session, sessions_pending] at hands ⊢
      exact hands.change (others fun _ _ => trivial) trivial
  | publish =>
      simp only [sessions_session] at hands ⊢
      exact hands.change (others fun _ other => other.symm) (.inl (by simp [Act.exec]))
  | candidate | fill =>
      simp only [sessions_session, sessions_pending] at hands ⊢
      exact hands.change (others fun _ _ => trivial) hands.head
  | unhelped =>
      simp only [sessions_session, sessions_pending, sessions_debt] at hands ⊢
      exact hands.change (others fun _ other => other.symm) trivial
  | @helped n c gen p e g other envelope gift =>
      simp only [sessions_session, sessions_own] at hands ⊢
      refine hands.change (others fun _ other => other.symm) ?_
      rcases hands.head with ⟨same, _⟩ | ⟨given, helps, eq, cell⟩
      · exact absurd same other
      · rw [eq] at gift
        exact ⟨given, helps, cell, congrArg Ptr.addr gift, congrArg Ptr.prov gift⟩
  | readEnvelope addr prov =>
      have nodes := env.nodes
      simp only [sessions_session, sessions_own] at hands nodes ⊢
      obtain ⟨given, helps, cell, addr', prov'⟩ := hands.head
      obtain ⟨_, there, there'⟩ := nodes.head
      exact hands.change (others fun _ _ => trivial)
        ⟨given, helps, cell, addr.trans (there.trans addr'), prov.trans (there'.trans prov')⟩
  | @handOver c p since h their mine g same =>
      obtain ⟨ok, live, _⟩ : (Pos.space h their).Ok sh c := inv.walks.pos c p since _ (by simp)
      have gen : tagOf (sh.control h.who) = GEN_TAG := same ▸ ok.tag
      have addr : sh.activeAddr h.who = sh.cellAddr c :=
        (pass.pos c p since (.space h their) (by simp)).2 same
      have cell (d) (used : sh.status d = .live)
          (eq : sh.activeAddr h.who = sh.cellAddr d) : c = d :=
        inv.cells.alone c d (by simp [live]) (by simp [used]) (addr.symm.trans eq)
      simp only [sessions_session, sessions_walk, sessions_own] at hands sess ⊢
      refine hands.change ?_ trivial
      intro m v other has before
      by_cases eq : m = h.who
      · subst eq
        have has : Has ((h.self, .offering mine g) ::ₘ ArcSwap.sessions r) h.who v := by
          cases v <;> simpa [Has, other] using has
        have same : (⟨c, g.ptr, g.began, g.ended, sh.time⟩ : HelpRec).cell = c := rfl
        exact sess.handOver has before gen cell same (by simp [Act.exec]) (by simp [Act.exec])
      · exact before.spared (.handOver h.who h.self mine _) (Ne.symm eq)
  | link | moveCell => exact hands.keep (spared fun _ => trivial)
  | _ =>
      simp at hands ⊢
      exact hands.keep (spared fun _ => trivial)

end step

-----------------------------------------------------------------------------------------
-- Readers and helpers together
-----------------------------------------------------------------------------------------

/-- What readers and helpers know of each other. -/
structure HelpInv (sh : Shared) (M : Tokens) : Prop where
  pass : PassInv sh M
  env : EnvInv sh M
  hands : Assigns (HandOk sh) (sessions M)

theorem HelpInv.init : HelpInv .init 0 where
  pass := .init
  env := .init
  hands := by
    refine ⟨by simp [sessions], ?_⟩
    intro n v has
    cases v with
    | none => trivial
    | some ses => simp [sessions, Has] at has

/-- A step keeps readers and helpers in order. -/
theorem ProtoStep.helpInv {sh r old act new} (step : ProtoStep sh r old act new)
    (list : sh.ListOk) (inv : TxInv sh old) (fresh : act.Fresh old) (help : HelpInv sh old)
    : HelpInv (sh.after act) new where
  pass := step.passes list inv fresh help.pass
  env := (step.envelopes list inv fresh help.env).tick _
  hands :=
    (step.handovers list inv help.pass help.env help.hands).keep
      fun _ _ _ ok => ok.keep rfl rfl rfl

/-- The storage and the generation of a transaction that its reader has not ended. -/
def Session.tx : Session → Option (CellId × Nat)
  | .published c gen | .candidate c gen _ | .filled c gen _ => some (c, gen)
  | _ => none

/-- A replacement in the control word is in the reader's envelope, and one helper has put it
there.
-/
theorem HelpInv.replaced {sh : Shared} {M : Tokens} {n} (help : HelpInv sh M)
    (inv : SessionInv sh (sessions M)) (tag : tagOf (sh.control n) = REPLACEMENT_TAG)
    : ∃ ses c gen given, .session n ses ∈ M ∧ ses.tx = some (c, gen)
        ∧ sh.helps n = [given] ∧ given.cell = c
        ∧ sh.control n = sh.env n + REPLACEMENT_TAG
        ∧ sh.handover (handoverNode (sh.env n)) = given.val := by
  have idle {P : Prop} (control : sh.control n = IDLE) : P := by
    rw [control] at tag
    cases tag
  have busy : n ∈ (sessions M).map Prod.fst := by
    by_contra absent
    exact idle (inv.quiet n absent).control
  obtain ⟨⟨n, ses⟩, inside, rfl⟩ := Multiset.mem_map.mp busy
  have ok := inv.ok n ses inside
  have given {c gen} (tx : ses.tx = some (c, gen)) (running : InTx sh n c gen)
      (handed : Handed sh n c gen) (enveloped : Enveloped sh n)
      : ∃ ses c gen given, .session n ses ∈ M ∧ ses.tx = some (c, gen)
          ∧ sh.helps n = [given] ∧ given.cell = c
          ∧ sh.control n = sh.env n + REPLACEMENT_TAG
          ∧ sh.handover (handoverNode (sh.env n)) = given.val := by
    rcases handed with ⟨same, _⟩ | ⟨given, helps, gift, cell⟩
    · have gen := running.tag
      rw [← same, tag] at gen
      cases gen
    · obtain ⟨control, content⟩ := enveloped.gift _ gift
      exact ⟨ses, c, gen, given, mem_sessions.mp inside, tx, helps, cell, control, content⟩
  have handed := help.hands.all n (some ses) inside
  have enveloped := help.env.nodes.all n (some ses) inside
  cases ses with
  | published | candidate | filled => exact given rfl ok.1 handed enveloped
  | ended | helped => exact idle ok.1
  | scanned | registered | announced | envelope | offering | exchanging =>
      exact idle ok.1.control

end ArcSwap
