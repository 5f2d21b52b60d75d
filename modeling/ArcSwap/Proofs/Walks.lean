import ArcSwap.Proofs.NodePool
import ArcSwap.Proofs.Sessions

/-! The walks of the writers, and what one step of the protocol does to sessions and walks.
A helper never helps itself, and it works for a storage that is in use.
-/

namespace ArcSwap

open Bags

-----------------------------------------------------------------------------------------
-- What a walk knows
-----------------------------------------------------------------------------------------

/-- A pass of the loop in `Slots::help` that has read a generation. -/
structure Helping.Ok (sh : Shared) (h : Helping) : Prop where
  who : sh.linked h.who = true
  self : sh.linked h.self = true
  tag : tagOf h.control = GEN_TAG
  other : h.who ≠ h.self

/-- The values of the control word that the loop in `Slots::help` expects. -/
def Word (control : Nat) : Prop :=
  tagOf control = GEN_TAG ∨ tagOf control = REPLACEMENT_TAG ∨ control = IDLE

def Pos.Ok (sh : Shared) (c : CellId) : Pos → Prop
  | .start | .done => True
  | .node n | .slots n _ => sh.linked n = true
  | .active h =>
      h.Ok sh ∧ (sh.status c = .dropping → sh.activeAddr h.who ≠ sh.cellAddr c)
  | .differs h => h.Ok sh
  | .agrees h => h.Ok sh ∧ sh.status c = .live
  | .space h their => h.Ok sh ∧ sh.status c = .live ∧ tagOf their = 0
  | .handed h their => h.Ok sh ∧ tagOf their = 0
  | .lost h =>
      sh.linked h.who = true ∧ sh.linked h.self = true ∧ h.who ≠ h.self
      ∧ Word h.control ∧ sh.status c = .live

structure WalkInv (sh : Shared) (M : Tokens) : Prop where
  offers : ∀ n, tagOf (sh.spaceOffer n) = 0
  linked : ∀ n ses, .session n ses ∈ M → sh.linked n = true
  slots : ∀ n i, sh.slot n i ≠ NONE → sh.linked n = true ∧ i ≤ HELPING
  pos : ∀ c p since pos, .walk c p since pos ∈ M → pos.Ok sh c

/-- What holds of the transactions in runs without a wrapped counter. -/
structure TxInv (sh : Shared) (M : Tokens) : Prop where
  cells : CellInv sh M
  sessions : SessionInv sh (sessions M)
  walks : WalkInv sh M

/-- The tokens that are not involved in a step are there before it. -/
theorem ProtoStep.frame {sh r old act new tok} (step : ProtoStep sh r old act new)
    (inside : tok ∈ r)
    : tok ∈ old := by
  cases step <;> simp only [Multiset.mem_cons, inside, or_true]

/-- A storage with a walk stays as it is, unless the walk takes part in the step. -/
theorem ProtoStep.walkCell {sh r old act new c p since pos}
    (step : ProtoStep sh r old act new) (inv : CellInv sh old)
    (walk : .walk c p since pos ∈ r)
    : (act.exec sh).status c = sh.status c ∧ (act.exec sh).cellAddr c = sh.cellAddr c := by
  have used := inv.of_walk (step.frame walk)
  cases step with
  | quiet quiet => cases act <;> first | exact ⟨rfl, rfl⟩ | cases quiet
  | inc => unfold incAct; split <;> exact ⟨rfl, rfl⟩
  | newCell =>
      have bound := inv.bound c used
      simp [Act.exec, Nat.ne_of_lt bound]
  | @moveCell d a _ unused =>
      have other : c ≠ d := fun eq => unused _ walk (eq ▸ rfl)
      simp [Act.exec, other]
  | @closeCell d a _ unused =>
      have other : c ≠ d := fun eq => unused _ walk (eq ▸ rfl)
      simp [Act.exec, other]
  | @freeCell d =>
      have other : c ≠ d := by
        rintro rfl
        have close := inv.close c
        have heavy := le_tally (Token.walks c) walk
        rw [inv.of_closed] at close
        simp only [CloseOk, tally_cons, Token.closings, Token.closeds, Token.walks,
          ↓reduceIte] at close heavy
        omega
      simp [Act.exec, other]
  | _ => exact ⟨rfl, rfl⟩

-----------------------------------------------------------------------------------------
-- Sessions
-----------------------------------------------------------------------------------------

section step

variable {sh : Shared} {r old new : Tokens} {act : Act}

/-- The nodes other than `n` do not notice an access to `n`. -/
theorem ProtoStep.others {n} (step : ProtoStep sh r old act new) (cells : CellInv sh old)
    (away : ∀ m, m ≠ n → ¬ act.touches m) (noNew : act ≠ .newNode)
    : Others sh (act.exec sh) n (sessions r) := by
  have steady (m) (other : m ≠ n) : Steady sh (act.exec sh) m :=
    Act.steady (away m other) fun new => absurd new noNew
  refine ⟨fun m ses other inside ok => ?_, fun m other _ quiet => (steady m other).quiet quiet⟩
  exact ok.steady (steady m other) fun c needs live =>
    step.live cells (mem_sessions.mp inside) needs live

/-- A step that no session takes part in. -/
theorem ProtoStep.keep (step : ProtoStep sh r old act new) (cells : CellInv sh old)
    (away : ∀ m, ¬ act.touches m) (noNew : act ≠ .newNode)
    (inv : SessionInv sh (sessions r))
    : SessionInv (act.exec sh) (sessions r) := by
  have steady (m) : Steady sh (act.exec sh) m :=
    Act.steady (away m) fun new => absurd new noNew
  refine inv.keep (fun m ses inside ok => ?_) fun m _ quiet => (steady m).quiet quiet
  exact ok.steady (steady m) fun c needs live =>
    step.live cells (mem_sessions.mp inside) needs live

/-- A published generation belongs to a running transaction. -/
theorem SessionInv.tx {S : Multiset (NodeId × Session)} (inv : SessionInv sh S) {n}
    (gen : tagOf (sh.control n) = GEN_TAG)
    : ∃ ses c, (n, ses) ∈ S ∧ ses.cell = some c ∧ InTx sh n c (sh.control n) := by
  have busy : n ∈ S.map Prod.fst := by
    by_contra absent
    rw [(inv.quiet n absent).control] at gen
    cases gen
  obtain ⟨⟨m, ses⟩, inside, rfl⟩ := Multiset.mem_map.mp busy
  have ok := inv.ok m ses inside
  have idle (control : sh.control m = IDLE) : False := by
    rw [control] at gen
    cases gen
  have running {c g} (tx : InTx sh m c g) : InTx sh m c (sh.control m) := by
    refine ⟨tx.live, tx.addr, gen, ?_⟩
    rcases tx.control with ⟨_, none⟩ | ⟨tag, _⟩
    · exact .inl ⟨rfl, none⟩
    · rw [gen] at tag
      cases tag
  cases ses with
  | published c g => exact ⟨_, c, inside, rfl, running ok.1⟩
  | candidate c g p => exact ⟨_, c, inside, rfl, running ok.1⟩
  | filled c g p => exact ⟨_, c, inside, rfl, running ok.1⟩
  | ended p => exact (idle ok.1).elim
  | helped c p e g => exact (idle ok.1).elim
  | scanned | registered | announced | envelope | offering | exchanging =>
      exact (idle ok.1.control).elim

/-- The control word of a node is always a valid one. -/
theorem SessionInv.word {S : Multiset (NodeId × Session)} (inv : SessionInv sh S)
    (n : NodeId)
    : Word (sh.control n) := by
  by_cases busy : n ∈ S.map Prod.fst
  · obtain ⟨⟨m, ses⟩, inside, rfl⟩ := Multiset.mem_map.mp busy
    have ok := inv.ok m ses inside
    have running {c g} (tx : InTx sh m c g) : Word (sh.control m) := by
      rcases tx.control with ⟨same, _⟩ | ⟨tag, _⟩
      · exact .inl (same ▸ tx.tag)
      · exact .inr (.inl tag)
    cases ses with
    | published | candidate | filled => exact running ok.1
    | ended | helped => exact .inr (.inr ok.1)
    | scanned | registered | announced | envelope | offering | exchanging =>
        exact .inr (.inr ok.1.control)
  · exact .inr (.inr (inv.quiet n busy).control)

section idle

variable {n : NodeId}

/-- Only a session keeps a node busy. -/
theorem Idle.cons {tok : Token} (other : ∀ ses, tok ≠ .session n ses)
    : Idle n (tok ::ₘ r) ↔ Idle n r := by
  constructor
  · exact fun idle ses inside => idle ses (Multiset.mem_cons_of_mem inside)
  · intro idle ses inside
    rcases Multiset.mem_cons.mp inside with eq | inside
    · exact other ses eq.symm
    · exact idle ses inside

@[simp]
theorem Idle.own {p} : Idle n (.own p ::ₘ r) ↔ Idle n r :=
  Idle.cons (by simp)

@[simp]
theorem Idle.seen {p} : Idle n (.seen p ::ₘ r) ↔ Idle n r :=
  Idle.cons (by simp)

@[simp]
theorem Idle.walk {c p since pos} : Idle n (.walk c p since pos ::ₘ r) ↔ Idle n r :=
  Idle.cons (by simp)

end idle

/-- `Idle` in terms of the sessions. -/
theorem Idle.absent {n} (idle : Idle n r) : n ∉ (sessions r).map Prod.fst := by
  intro busy
  obtain ⟨⟨m, ses⟩, inside, rfl⟩ := Multiset.mem_map.mp busy
  exact idle ses (mem_sessions.mp inside)

theorem SessionInv.idle {n} (inv : SessionInv sh (sessions r)) (idle : Idle n r)
    : Quiet sh n :=
  inv.quiet n idle.absent

theorem Act.protocolQuiet.away (quiet : act.protocolQuiet) (n : NodeId) : ¬ act.touches n := by
  intro touches
  cases act <;> first | exact touches | cases quiet

theorem Act.protocolQuiet.noNew (quiet : act.protocolQuiet) : act ≠ .newNode := by
  rintro rfl
  cases quiet

theorem incAct_away (p : Ptr) (n : NodeId) : ¬ (incAct p).touches n := by
  unfold incAct
  split <;> exact id

theorem incAct_noNew (p : Ptr) : incAct p ≠ .newNode := by
  unfold incAct
  split <;> simp

/-- An access to the session's own node. -/
theorem ProtoStep.own {n} (step : ProtoStep sh r old act new) (cells : CellInv sh old)
    (only : ∀ m, act.touches m → m = n) (noNew : act ≠ .newNode)
    : Others sh (act.exec sh) n (sessions r) :=
  step.others cells (fun m other touches => other (only m touches)) noNew

/-- A hand-over ends the transaction that published the generation. -/
theorem Session.Ok.handOver {who self space given ses} (ok : Session.Ok sh who ses)
    (gen : tagOf (sh.control who) = GEN_TAG) (aligned : tagOf space = 0)
    : Session.Ok ((Act.handOver who self space given).exec sh) who ses := by
  have idle {P : Prop} (control : sh.control who = IDLE) : P := by
    rw [control] at gen
    cases gen
  have running {c g} (tx : InTx sh who c g)
      : InTx ((Act.handOver who self space given).exec sh) who c g := by
    refine ⟨tx.live, tx.addr, tx.tag, .inr ⟨?_, ?_⟩⟩
    · simp only [tagOf, REPLACEMENT_TAG, Act.exec, Function.update_self] at aligned ⊢
      omega
    · simp [Act.exec]
  cases ses with
  | published c g => exact ⟨running ok.1, ok.2⟩
  | candidate c g p => exact ⟨running ok.1, ok.2⟩
  | filled c g p => exact ⟨running ok.1, ok.2⟩
  | ended p => exact idle ok.1
  | helped c p e g => exact idle ok.1
  | scanned | registered | announced | envelope | offering | exchanging =>
      exact idle ok.1.control

/-- A step keeps the sessions in order. -/
theorem ProtoStep.sessions (step : ProtoStep sh r old act new) (list : sh.ListOk)
    (inv : TxInv sh old)
    : SessionInv (act.exec sh) (sessions new) := by
  have cells := inv.cells
  have sess := inv.sessions
  have walks := inv.walks
  have own {n} := step.own (n := n) cells
  have keep := step.keep cells
  cases step with
  | quiet quiet => exact keep quiet.away quiet.noNew sess
  | inc => simpa using keep (incAct_away _) (incAct_noNew _) sess
  | newNode =>
      have other {m ses} (inside : (m, ses) ∈ ArcSwap.sessions r) : m ≠ sh.nNodes :=
        Nat.ne_of_lt (list.bound (walks.linked m ses (mem_sessions.mp inside)))
      have away (m) : ¬ Act.newNode.touches m := id
      refine sess.keep (fun m ses inside ok => ?_) fun m _ quiet => ?_
      · exact ok.steady (Act.steady (away m) fun _ => other inside)
          fun _ _ live => ⟨live, rfl⟩
      · by_cases eq : m = sh.nNodes
        · subst eq
          constructor <;> simp [Act.exec]
        · exact (Act.steady (away m) fun _ => eq).quiet quiet
  | scan linked idle fast empty =>
      simp only [sessions_session, sessions_seen] at sess ⊢
      exact sess.start idle.absent (own (by simp [Act.touches]) (by simp))
        ⟨sess.idle idle, fast, empty⟩
  | register =>
      simp only [sessions_session, sessions_pending] at sess ⊢
      obtain ⟨⟨control, gift, slot⟩, fast, empty⟩ := sess.head
      refine sess.change (own (by simp [Act.touches]) (by simp))
        ⟨⟨control, gift, ?_⟩, fast, .inl ?_⟩
      · have other : HELPING ≠ _ := Nat.ne_of_gt fast
        simpa [Act.exec, set₂, other] using slot
      · simp [Act.exec, set₂]
  | confirmFast =>
      simp only [sessions_session, sessions_pending, sessions_debt] at sess ⊢
      exact sess.stop (own (by simp [Act.touches]) (by simp)) sess.head.1
  | @payBack n i p =>
      simp only [sessions_session, sessions_pending] at sess ⊢
      have away (m) : ¬ (Act.settle n i).touches m := id
      exact sess.stop (own (by simp [Act.touches]) (by simp))
        ((Act.steady (away _) (by simp)).quiet sess.head.1)
  | adopt =>
      simp only [sessions_session, sessions_pending, sessions_own] at sess ⊢
      exact sess.stop (own (by simp [Act.touches]) (by simp)) sess.head.1
  | @announce n c counter linked idle live aligned fresh =>
      have quiet := sess.idle idle
      simp only [sessions_session]
      refine sess.start idle.absent (own (by simp [Act.touches]) (by simp))
        ⟨⟨quiet.control, quiet.gift, quiet.slot⟩, live, ?_, aligned, fresh⟩
      simp [Act.exec]
  | @publish n c counter =>
      simp only [sessions_session] at sess ⊢
      obtain ⟨quiet, live, addr, aligned, _⟩ := sess.head
      refine sess.change (own (by simp [Act.touches]) (by simp))
        ⟨⟨live, addr, ?_, .inl ⟨?_, quiet.gift⟩⟩, quiet.slot⟩
      · simp only [tagOf, GEN_TAG]
        omega
      · simp [Act.exec]
  | candidate =>
      simp only [sessions_session] at sess ⊢
      exact sess.change (own (by simp [Act.touches]) (by simp)) sess.head
  | fill =>
      simp only [sessions_session, sessions_pending] at sess ⊢
      obtain ⟨tx, slot⟩ := sess.head
      refine sess.change (own (by simp [Act.touches]) (by simp))
        ⟨⟨tx.live, tx.addr, tx.tag, tx.control⟩, .inl ?_⟩
      simp [Act.exec, set₂]
  | unhelped =>
      simp only [sessions_session, sessions_pending, sessions_debt] at sess ⊢
      refine sess.change (own (by simp [Act.touches]) (by simp))
        ⟨?_, ?_, sess.head.2⟩ <;> simp [Act.exec]
  | @helped n c gen p e g other envelope gift =>
      simp only [sessions_session, sessions_own] at sess ⊢
      obtain ⟨tx, slot⟩ := sess.head
      refine sess.change (own (by simp [Act.touches]) (by simp)) ⟨?_, ?_, slot, ?_⟩
      · simp [Act.exec]
      · simp [Act.exec]
      · rcases tx.control with ⟨same, _⟩ | ⟨tag, _⟩
        · exact absurd same other
        · rw [envelope, tag]
          simp only [tagOf, REPLACEMENT_TAG] at tag ⊢
          omega
  | readEnvelope =>
      simp only [sessions_session, sessions_own] at sess ⊢
      exact sess.change (own (by simp [Act.touches]) (by simp)) sess.head
  | restore =>
      simp only [sessions_session] at sess ⊢
      obtain ⟨control, gift, slot, _⟩ := sess.head
      exact sess.change (own (by simp [Act.touches]) (by simp)) ⟨control, gift, slot⟩
  | ownPaid =>
      simp only [sessions_session, sessions_debt] at sess ⊢
      obtain ⟨control, gift, _⟩ := sess.head
      refine sess.stop (own (by simp [Act.touches]) (by simp)) ⟨control, gift, ?_⟩
      simp [Act.exec, set₂]
  | ownWasPaid other =>
      simp only [sessions_session, sessions_debt, sessions_own] at sess ⊢
      obtain ⟨control, gift, slot⟩ := sess.head
      exact sess.stop (own (by simp [Act.touches]) (by simp))
        ⟨control, gift, slot.resolve_left other⟩
  | unusedPaid =>
      simp only [sessions_session, sessions_pending] at sess ⊢
      obtain ⟨control, gift, _⟩ := sess.head
      refine sess.stop (own (by simp [Act.touches]) (by simp)) ⟨control, gift, ?_⟩
      simp [Act.exec, set₂]
  | unusedWasPaid other =>
      simp only [sessions_session, sessions_pending, sessions_own] at sess ⊢
      obtain ⟨control, gift, slot⟩ := sess.head
      exact sess.stop (own (by simp [Act.touches]) (by simp))
        ⟨control, gift, slot.resolve_left other⟩
  | @mySpace c p since h their idle =>
      simp only [sessions_session, sessions_walk] at sess ⊢
      exact sess.start idle.absent (own (by simp [Act.touches]) (by simp))
        ⟨sess.idle idle, walks.offers h.self⟩
  | fillSpace =>
      simp only [sessions_session] at sess ⊢
      obtain ⟨quiet, aligned⟩ := sess.head
      exact sess.change (own (by simp [Act.touches]) (by simp))
        ⟨⟨quiet.control, quiet.gift, quiet.slot⟩, aligned⟩
  | @handOver c p since h their mine g same =>
      obtain ⟨ok, live, aligned⟩ := walks.pos c p since (.space h their) (by simp)
      rw [Multiset.cons_swap] at sess
      simp only [sessions_session, sessions_walk, sessions_own] at sess ⊢
      obtain ⟨quiet, offered⟩ := sess.head
      have gen : tagOf (sh.control h.who) = GEN_TAG := same ▸ ok.tag
      refine sess.change ⟨fun m ses other inside before => ?_, fun m other absent before => ?_⟩
        ⟨⟨?_, ?_, quiet.slot⟩, aligned⟩
      · by_cases eq : m = h.who
        · subst eq
          exact before.handOver gen offered
        · exact before.steady (Act.steady (Ne.symm eq) (by simp)) fun _ _ live => ⟨live, rfl⟩
      · by_cases eq : m = h.who
        · rw [← eq, before.control] at gen
          cases gen
        · exact Steady.quiet (Act.steady (Ne.symm eq) (by simp)) before
      · simpa [Act.exec, Ne.symm ok.other] using quiet.control
      · simpa [Act.exec, Ne.symm ok.other] using quiet.gift
  | lose =>
      simp only [sessions_session, sessions_walk] at sess ⊢
      exact sess.stop (own (by simp [Act.touches]) (by simp)) sess.head.1
  | exchange =>
      simp only [sessions_session, sessions_walk] at sess ⊢
      obtain ⟨quiet, _⟩ := sess.head
      exact sess.stop (own (by simp [Act.touches]) (by simp))
        ⟨quiet.control, quiet.gift, quiet.slot⟩
  | link | moveCell => exact keep (by simp [Act.touches]) (by simp) sess
  | _ =>
      simp at sess ⊢
      exact keep (by simp [Act.touches]) (by simp) sess

-----------------------------------------------------------------------------------------
-- Walks
-----------------------------------------------------------------------------------------

/-- Accesses that keep what the walks know. -/
structure PosKeep (sh sh' : Shared) (c : CellId) : Prop where
  linked : ∀ n, sh.linked n = true → sh'.linked n = true
  status : sh'.status c = sh.status c
  addr
    : ∀ n, sh.linked n = true → sh.status c = .dropping → sh.activeAddr n ≠ sh.cellAddr c
        → sh'.activeAddr n ≠ sh'.cellAddr c

theorem Helping.Ok.keep {sh' : Shared} {h : Helping} (ok : h.Ok sh)
    (linked : ∀ n, sh.linked n = true → sh'.linked n = true)
    : h.Ok sh' :=
  ⟨linked _ ok.who, linked _ ok.self, ok.tag, ok.other⟩

theorem Pos.Ok.keep {sh' : Shared} {c : CellId} {pos : Pos} (ok : pos.Ok sh c)
    (keep : PosKeep sh sh' c)
    : pos.Ok sh' c := by
  cases pos with
  | start | done => trivial
  | node n | slots n j => exact keep.linked n ok
  | active h =>
      refine ⟨ok.1.keep keep.linked, fun dropping => ?_⟩
      rw [keep.status] at dropping
      exact keep.addr _ ok.1.who dropping (ok.2 dropping)
  | differs h => exact Helping.Ok.keep ok keep.linked
  | agrees h => exact ⟨ok.1.keep keep.linked, keep.status ▸ ok.2⟩
  | space h their => exact ⟨ok.1.keep keep.linked, keep.status ▸ ok.2.1, ok.2.2⟩
  | handed h their => exact ⟨ok.1.keep keep.linked, ok.2⟩
  | lost h =>
      obtain ⟨who, self, other, word, live⟩ := ok
      exact ⟨keep.linked _ who, keep.linked _ self, other, word, keep.status ▸ live⟩

theorem Pos.ok_at {c : CellId} {n : Option NodeId}
    (linked : ∀ m, n = some m → sh.linked m = true)
    : (Pos.at n).Ok sh c := by
  cases n with
  | none => trivial
  | some m => exact linked m rfl

/-- The writer that has read a valid word, before it looks at the address. -/
theorem Dispatched.ok {h : Helping} {pos c} (dispatch : Dispatched h pos)
    (who : sh.linked h.who = true) (self : sh.linked h.self = true)
    (other : tagOf h.control = GEN_TAG → h.who ≠ h.self)
    (addr
      : tagOf h.control = GEN_TAG → sh.status c = .dropping
          → sh.activeAddr h.who ≠ sh.cellAddr c)
    : pos.Ok sh c := by
  cases dispatch with
  | active gen => exact ⟨⟨who, self, gen, other gen⟩, addr gen⟩
  | slots => exact who

/-- A transaction is never for a storage that is closed down. -/
theorem TxInv.active_ne {M : Tokens} (inv : TxInv sh M) {n c}
    (gen : tagOf (sh.control n) = GEN_TAG) (dropping : sh.status c = .dropping)
    : sh.activeAddr n ≠ sh.cellAddr c := by
  obtain ⟨_, d, _, _, tx⟩ := inv.sessions.tx gen
  rw [tx.addr]
  intro same
  have eq := inv.cells.alone d c (by simp [tx.live]) (by simp [dropping]) same
  have live := tx.live
  rw [eq, dropping] at live
  cases live

/-- Nodes stay in the list. -/
theorem ProtoStep.linked (step : ProtoStep sh r old act new) (list : sh.ListOk) {n}
    (there : sh.linked n = true)
    : (act.exec sh).linked n = true := by
  have old : n ≠ sh.nNodes := Nat.ne_of_lt (list.bound there)
  cases step with
  | quiet quiet => cases act <;> first | exact there | cases quiet
  | inc => unfold incAct; split <;> exact there
  | newNode => simpa [Act.exec, old] using there
  | @link m =>
      by_cases eq : n = m
      · simp [Act.exec, eq]
      · simpa [Act.exec, eq] using there
  | _ => exact there

/-- A helper that finds its own storage announced works for one that is in use. -/
theorem CellInv.agrees {M : Tokens} (inv : CellInv sh M) {c p since h}
    (walk : .walk c p since (.active h) ∈ M) (ok : (Pos.active h).Ok sh c)
    (same : sh.activeAddr h.who = sh.cellAddr c)
    : sh.status c = .live := by
  have used := inv.of_walk walk
  cases status : sh.status c with
  | live => rfl
  | dropping => exact absurd same (ok.2 status)
  | gone => exact absurd status used

theorem ProtoStep.posKeep (step : ProtoStep sh r old act new) (list : sh.ListOk)
    (cells : CellInv sh old) {c p since pos} (walk : .walk c p since pos ∈ r)
    : PosKeep sh (act.exec sh) c := by
  obtain ⟨status, addr⟩ := step.walkCell cells walk
  refine ⟨fun n => step.linked list, status, fun n there dropping other => ?_⟩
  rw [addr]
  have old : n ≠ sh.nNodes := Nat.ne_of_lt (list.bound there)
  clear status addr
  cases step with
  | quiet quiet => cases act <;> first | exact other | cases quiet
  | inc => unfold incAct; split <;> exact other
  | newNode => simpa [Act.exec, old] using other
  | @announce m d counter _ _ live =>
      by_cases eq : n = m
      · simp only [Act.exec, eq, Function.update_self]
        intro same
        have eq := cells.alone d c (by simp [live]) (by simp [dropping]) same
        rw [eq, dropping] at live
        cases live
      · simpa [Act.exec, eq] using other
  | _ => exact other

/-- The addresses of envelopes are aligned. -/
theorem ProtoStep.offers (step : ProtoStep sh r old act new) (inv : TxInv sh old) (n : NodeId)
    : tagOf ((act.exec sh).spaceOffer n) = 0 := by
  have offers := inv.walks.offers
  have sess := inv.sessions
  cases step with
  | quiet quiet => cases act <;> first | exact offers n | cases quiet
  | inc => unfold incAct; split <;> exact offers n
  | newNode =>
      by_cases eq : n = sh.nNodes
      · simp [Act.exec, eq, handoverAddr, tagOf]
      · simpa [Act.exec, eq] using offers n
  | @restore m c p e g =>
      rw [sessions_session] at sess
      by_cases eq : n = m
      · simpa [Act.exec, eq] using sess.head.2.2.2
      · simpa [Act.exec, eq] using offers n
  | @exchange c p since h their =>
      rw [sessions_walk, sessions_session] at sess
      by_cases eq : n = h.self
      · simpa [Act.exec, eq] using sess.head.2
      · simpa [Act.exec, eq] using offers n
  | _ => exact offers n

/-- Sessions are on nodes of the list. -/
theorem ProtoStep.linkedSessions (step : ProtoStep sh r old act new) (list : sh.ListOk)
    (inv : WalkInv sh old) {n ses} (inside : .session n ses ∈ new)
    : (act.exec sh).linked n = true := by
  have frame {tok} (inside : tok ∈ r) : tok ∈ old := step.frame inside
  refine step.linked list ?_
  have linked := inv.linked n
  cases step with
  | scan there | announce there =>
      rcases Multiset.mem_cons.mp inside with eq | inside
      · cases eq
        exact there
      · exact linked ses (frame inside)
  | @mySpace c p since h their idle =>
      obtain ⟨ok, _⟩ := inv.pos c p since (.space h their) (by simp)
      simp only [Multiset.mem_cons, reduceCtorEq, false_or] at inside
      rcases inside with eq | inside
      · cases eq
        exact ok.self
      · exact linked ses (frame inside)
  | @handOver c p since h their mine g =>
      simp only [Multiset.mem_cons, reduceCtorEq, false_or] at inside
      rcases inside with eq | inside
      · cases eq
        exact linked (.offering mine g) (by simp)
      · exact linked ses (frame inside)
  | register | publish | candidate | fill | unhelped | helped | readEnvelope | restore
  | fillSpace =>
      simp only [Multiset.mem_cons, reduceCtorEq, false_or] at inside
      rcases inside with eq | inside
      · cases eq
        exact linked _ (Multiset.mem_cons_self _ _)
      · exact linked ses (frame inside)
  | _ => exact linked ses (frame (by simpa using inside))

/-- Only slots of nodes in the list are occupied. -/
theorem ProtoStep.slots (step : ProtoStep sh r old act new) (list : sh.ListOk)
    (inv : TxInv sh old) {n i} (occupied : (act.exec sh).slot n i ≠ NONE)
    : (act.exec sh).linked n = true ∧ i ≤ HELPING := by
  have slots := inv.walks.slots n i
  suffices sh.linked n = true ∧ i ≤ HELPING from ⟨step.linked list this.1, this.2⟩
  have sess := inv.sessions
  have linked := inv.walks.linked
  cases step with
  | quiet quiet => cases act <;> first | exact slots occupied | cases quiet
  | inc => revert occupied; unfold incAct; split <;> exact slots
  | newNode =>
      by_cases eq : n = sh.nNodes
      · simp [Act.exec, eq] at occupied
      · exact slots (by simpa [Act.exec, eq] using occupied)
  | @register m j =>
      by_cases eq : n = m ∧ i = j
      · rw [sessions_session] at sess
        obtain ⟨rfl, rfl⟩ := eq
        exact ⟨linked n _ (Multiset.mem_cons_self _ _), Nat.le_of_lt sess.head.2.1⟩
      · exact slots (by simpa [Act.exec, set₂, eq] using occupied)
  | @fill m c gen p =>
      by_cases eq : n = m ∧ i = HELPING
      · obtain ⟨rfl, rfl⟩ := eq
        exact ⟨linked n _ (Multiset.mem_cons_self _ _), Nat.le_refl _⟩
      · exact slots (by simpa [Act.exec, set₂, eq] using occupied)
  | payBack | ownPaid | unusedPaid | paid | settle =>
      refine slots fun empty => occupied ?_
      simp [Act.exec, set₂, empty]
  | _ => exact slots occupied

/-- A walk knows what it has to know about the place it goes to. -/
theorem ProtoStep.positions (step : ProtoStep sh r old act new) (list : sh.ListOk)
    (inv : TxInv sh old) {c p since pos} (inside : .walk c p since pos ∈ new)
    : pos.Ok (act.exec sh) c := by
  have keep {c p since} {pos : Pos} (walk : .walk c p since pos ∈ r)
      : pos.Ok (act.exec sh) c :=
    (inv.walks.pos c p since pos (step.frame walk)).keep (step.posKeep list inv.cells walk)
  have before {c p since} {pos : Pos} (walk : .walk c p since pos ∈ old) : pos.Ok sh c :=
    inv.walks.pos c p since pos walk
  have sess := inv.sessions
  cases step with
  | closeCell | write =>
      simp only [Multiset.mem_cons, reduceCtorEq, false_or] at inside
      rcases inside with eq | inside
      · cases eq
        trivial
      · exact keep inside
  | head =>
      rcases Multiset.mem_cons.mp inside with eq | inside
      · cases eq
        exact Pos.ok_at fun m head => (list.headSome head).1
      · exact keep inside
  | @settle d q from' n j | @skip d q from' n j =>
      rcases Multiset.mem_cons.mp inside with eq | inside
      · cases eq
        have there : (Pos.slots n j).Ok sh c := before (Multiset.mem_cons_self _ _)
        exact there
      · exact keep inside
  | @leave d q from' n j =>
      rcases Multiset.mem_cons.mp inside with eq | inside
      · cases eq
        have there : (Pos.slots n j).Ok sh c := before (Multiset.mem_cons_self _ _)
        exact Pos.ok_at fun m next => (list.nextSome there next).1
      · exact keep inside
  | @help d q from' n h goal who control seen entered self idle dispatch =>
      rcases Multiset.mem_cons.mp inside with eq | inside
      · cases eq
        have there : (Pos.node n).Ok sh c := before (Multiset.mem_cons_self _ _)
        subst who
        rw [sessions_walk] at sess
        refine dispatch.ok there self (fun gen same => ?_) fun gen => ?_
        · rw [control, same, (sess.idle idle).control] at gen
          cases gen
        · exact inv.active_ne (control ▸ gen)
      · exact keep inside
  | @agrees d q from' h same =>
      rcases Multiset.mem_cons.mp inside with eq | inside
      · cases eq
        have ok : (Pos.active h).Ok sh c := before (Multiset.mem_cons_self _ _)
        exact ⟨ok.1, inv.cells.agrees (Multiset.mem_cons_self _ _) ok same⟩
      · exact keep inside
  | @differs d q from' h =>
      rcases Multiset.mem_cons.mp inside with eq | inside
      · cases eq
        obtain ⟨ok, _⟩ : (Pos.active h).Ok sh c := before (Multiset.mem_cons_self _ _)
        exact ok
      · exact keep inside
  | @unchanged d q from' h =>
      rcases Multiset.mem_cons.mp inside with eq | inside
      · cases eq
        have ok : (Pos.differs h).Ok sh c := before (Multiset.mem_cons_self _ _)
        exact ok.who
      · exact keep inside
  | @again d q from' h goal _ dispatch =>
      rcases Multiset.mem_cons.mp inside with eq | inside
      · cases eq
        have ok : (Pos.differs h).Ok sh c := before (Multiset.mem_cons_self _ _)
        exact dispatch.ok ok.who ok.self (fun _ => ok.other) fun gen => inv.active_ne gen
      · exact keep inside
  | @theirSpace d q from' h =>
      rcases Multiset.mem_cons.mp inside with eq | inside
      · cases eq
        obtain ⟨ok, live⟩ : (Pos.agrees h).Ok sh c := before (Multiset.mem_cons_self _ _)
        exact ⟨ok, live, inv.walks.offers h.who⟩
      · exact keep inside
  | @mySpace d q from' h their =>
      simp only [Multiset.mem_cons, reduceCtorEq, false_or] at inside
      rcases inside with eq | inside
      · cases eq
        have there : (Pos.space h their).Ok sh c := before (Multiset.mem_cons_self _ _)
        exact there
      · exact keep inside
  | @handOver d q from' h their =>
      simp only [Multiset.mem_cons, reduceCtorEq, false_or] at inside
      rcases inside with eq | inside
      · cases eq
        obtain ⟨ok, _, aligned⟩ : (Pos.space h their).Ok sh c :=
          before (Multiset.mem_cons_self _ _)
        exact ⟨⟨ok.who, ok.self, ok.tag, ok.other⟩, aligned⟩
      · exact keep inside
  | @lose d q from' h their =>
      rcases Multiset.mem_cons.mp inside with eq | inside
      · cases eq
        obtain ⟨ok, live, _⟩ : (Pos.space h their).Ok sh c :=
          before (Multiset.mem_cons_self _ _)
        rw [sessions_walk, sessions_session] at sess
        exact ⟨ok.who, ok.self, ok.other, sess.word h.who, live⟩
      · exact keep inside
  | @retry d q from' h goal dispatch =>
      rcases Multiset.mem_cons.mp inside with eq | inside
      · cases eq
        obtain ⟨who, self, other, _, live⟩ : (Pos.lost h).Ok sh c :=
          before (Multiset.mem_cons_self _ _)
        exact dispatch.ok who self (fun _ => other) fun _ dropping => absurd live (by
          rw [show sh.status c = .dropping from dropping]
          simp)
      · exact keep inside
  | @exchange d q from' h their =>
      rcases Multiset.mem_cons.mp inside with eq | inside
      · cases eq
        obtain ⟨ok, _⟩ : (Pos.handed h their).Ok sh c := before (Multiset.mem_cons_self _ _)
        exact ok.who
      · exact keep inside
  | _ => exact keep (by simpa using inside)

/-- A step keeps the walks in order. -/
theorem ProtoStep.walks (step : ProtoStep sh r old act new) (list : sh.ListOk)
    (inv : TxInv sh old)
    : WalkInv (act.exec sh) new :=
  ⟨step.offers inv, fun _ _ => step.linkedSessions list inv.walks,
    fun _ _ => step.slots list inv, fun _ _ _ _ => step.positions list inv⟩

/-- The transactions stay in order as long as no generation counter wraps. -/
theorem ProtoStep.tx (step : ProtoStep sh r old act new) (list : sh.ListOk)
    (inv : TxInv sh old)
    : TxInv (act.exec sh) new :=
  ⟨step.cells inv.cells, step.sessions list inv, step.walks list inv⟩

end step

end ArcSwap
