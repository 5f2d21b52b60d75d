import ArcSwap.Library.Assignments
import ArcSwap.Proofs.Passes
import Mathlib.Data.Set.Card
import Mathlib.Logic.Equiv.Basic

/-! The envelopes of the helping protocol. Every node has one of its own at any time, an
exchange counting as done when the helper's compare-exchange succeeds, and nobody writes to
the envelope that was given to a reader before the reader has read it.
-/

namespace ArcSwap

open Assignments

theorem handoverNode_addr (n : NodeId) : handoverNode (handoverAddr n) = n := by
  rw [handoverNode, handoverAddr, Nat.mul_div_cancel_left _ (by decide), Nat.add_sub_cancel]

theorem handoverAddr_inj {m n : NodeId} (same : handoverAddr m = handoverAddr n) : m = n := by
  rw [← handoverNode_addr m, same, handoverNode_addr]

-----------------------------------------------------------------------------------------
-- The envelope of one node
-----------------------------------------------------------------------------------------

/-- A node whose owner is not exchanging envelopes. A reader that was helped has not noticed
yet, and its envelope holds what it was given.
-/
structure Enveloped (sh : Shared) (n : NodeId) : Prop where
  offer : sh.gift n = none → sh.spaceOffer n = sh.env n
  gift
    : ∀ g, sh.gift n = some g
        → sh.control n = sh.env n + REPLACEMENT_TAG ∧ sh.handover (handoverNode (sh.env n)) = g

/-- What holds of the envelope of a node and of the word that names it. -/
def EnvOk (sh : Shared) (n : NodeId) : Option Session → Prop
  | some (.helped _ _ e g) =>
      sh.env n = e ∧ (sh.handover (handoverNode e)).addr = g.addr
      ∧ (sh.handover (handoverNode e)).prov = g.prov
  | some (.envelope mine) => sh.env n = mine ∧ sh.spaceOffer n = mine
  | some (.offering mine g) =>
      sh.env n = mine ∧ sh.spaceOffer n = mine ∧ sh.handover (handoverNode mine) = g.ptr
  | some (.exchanging their) => sh.env n = their
  | _ => Enveloped sh n

/-- The envelopes do not notice the difference at this node. -/
structure SameEnv (sh sh' : Shared) (n : NodeId) : Prop where
  env : sh'.env n = sh.env n
  spaceOffer : sh'.spaceOffer n = sh.spaceOffer n
  gift : sh'.gift n = sh.gift n
  control : sh'.control n = sh.control n
  handover : sh'.handover (handoverNode (sh.env n)) = sh.handover (handoverNode (sh.env n))

section node

variable {sh sh' : Shared} {n : NodeId} {v : Option Session}

theorem Enveloped.keep (ok : Enveloped sh n) (same : SameEnv sh sh' n) : Enveloped sh' n := by
  refine ⟨?_, ?_⟩
  · rw [same.gift, same.spaceOffer, same.env]
    exact ok.offer
  · rw [same.gift, same.control, same.env, same.handover]
    exact ok.gift

/-- A node that has not been given anything. -/
theorem Enveloped.of_none (none : sh.gift n = none) (offer : sh.spaceOffer n = sh.env n)
    : Enveloped sh n := by
  refine ⟨fun _ => offer, ?_⟩
  intro g gift
  rw [none] at gift
  cases gift

theorem EnvOk.keep (ok : EnvOk sh n v) (same : SameEnv sh sh' n) : EnvOk sh' n v := by
  have env := same.env
  have offer := same.spaceOffer
  have content := same.handover
  cases v with
  | none => exact Enveloped.keep ok same
  | some ses =>
      cases ses with
      | helped c p e g =>
          obtain ⟨rfl, addr, prov⟩ := ok
          exact ⟨env, content ▸ addr, content ▸ prov⟩
      | envelope mine =>
          obtain ⟨rfl, offered⟩ := ok
          exact ⟨env, offer.trans offered⟩
      | offering mine g =>
          obtain ⟨rfl, offered, filled⟩ := ok
          exact ⟨env, offer.trans offered, content.trans filled⟩
      | exchanging their => exact env.trans ok
      | _ => exact Enveloped.keep ok same

end node

-----------------------------------------------------------------------------------------
-- All envelopes
-----------------------------------------------------------------------------------------

/-- The envelopes of the nodes in the list are the ones that were made for these nodes, and
a node that is not in the list has its own.
-/
structure EnvMap (sh : Shared) : Prop where
  inj : ∀ m n, m < sh.nNodes → n < sh.nNodes → sh.env m = sh.env n → m = n
  own : ∀ n < sh.nNodes, sh.linked n = false → sh.env n = handoverAddr n
  cells : ∀ n, sh.linked n = true → ∃ k, sh.linked k = true ∧ sh.env n = handoverAddr k

structure EnvInv (sh : Shared) (M : Tokens) : Prop where
  map : EnvMap sh
  nodes : Assigns (EnvOk sh) (sessions M)
  offers : ∀ n < sh.nNodes, ∃ k, sh.spaceOffer n = handoverAddr k
  /-- What a helper has read of its reader's envelope is right as long as its word is. -/
  spaces
    : ∀ c p since h their, .walk c p since (.space h their) ∈ M
        → sh.control h.who = h.control → their = sh.env h.who

theorem EnvMap.addr {sh : Shared} (map : EnvMap sh) {n} (bound : n < sh.nNodes)
    : ∃ k, sh.env n = handoverAddr k := by
  cases linked : sh.linked n with
  | true =>
      obtain ⟨k, _, env⟩ := map.cells n linked
      exact ⟨k, env⟩
  | false => exact ⟨n, map.own n bound linked⟩

/-- Different nodes have their envelopes in different places. -/
theorem EnvMap.apart {sh : Shared} (map : EnvMap sh) {m n} (bound : m < sh.nNodes)
    (bound' : n < sh.nNodes) (other : m ≠ n)
    : handoverNode (sh.env m) ≠ handoverNode (sh.env n) := by
  obtain ⟨j, env⟩ := map.addr bound
  obtain ⟨k, env'⟩ := map.addr bound'
  intro same
  rw [env, env', handoverNode_addr, handoverNode_addr] at same
  exact other (map.inj m n bound bound' (by rw [env, env', same]))

/-- Every envelope of a node in the list belongs to exactly one node of the list. -/
theorem EnvMap.bijective {sh : Shared} (map : EnvMap sh) (list : sh.ListOk)
    : Set.BijOn sh.env {n | sh.linked n = true} (handoverAddr '' {n | sh.linked n = true}) := by
  have finite : {n | sh.linked n = true}.Finite :=
    (Set.finite_lt_nat sh.nNodes).subset fun n linked => list.bound linked
  have inside
      : Set.MapsTo (handoverNode ∘ sh.env) {n | sh.linked n = true} {n | sh.linked n = true} := by
    intro n linked
    obtain ⟨k, there, env⟩ := map.cells n linked
    simpa [env, handoverNode_addr] using there
  have injective : Set.InjOn (handoverNode ∘ sh.env) {n | sh.linked n = true} := by
    intro m linked n linked' same
    by_contra other
    exact map.apart (list.bound linked) (list.bound linked') other same
  have bijective := (finite.injOn_iff_bijOn_of_mapsTo inside).mp injective
  refine ⟨?_, ?_, ?_⟩
  · intro n linked
    obtain ⟨k, there, env⟩ := map.cells n linked
    exact ⟨k, there, env.symm⟩
  · intro m linked n linked' same
    exact map.inj m n (list.bound linked) (list.bound linked') same
  · rintro _ ⟨k, there, rfl⟩
    obtain ⟨n, linked, same⟩ := bijective.surjOn there
    obtain ⟨j, _, env⟩ := map.cells n linked
    refine ⟨n, linked, ?_⟩
    simp only [Function.comp, env, handoverNode_addr] at same
    rw [env, same]

-----------------------------------------------------------------------------------------
-- One step
-----------------------------------------------------------------------------------------

section step

variable {sh : Shared} {r old new : Tokens} {act : Act}

/-- A step keeps the envelopes apart. -/
theorem ProtoStep.envMap (step : ProtoStep sh r old act new) (list : sh.ListOk)
    (inv : WalkInv sh old) (map : EnvMap sh)
    : EnvMap (act.exec sh) := by
  obtain ⟨inj, own, cells⟩ := map
  cases step with
  | quiet quiet => cases act <;> first | exact ⟨inj, own, cells⟩ | cases quiet
  | inc => unfold incAct; split <;> exact ⟨inj, own, cells⟩
  | newNode =>
      have addr {n} (bound : n < sh.nNodes) : sh.env n ≠ handoverAddr sh.nNodes := by
        intro same
        cases linked : sh.linked n with
        | true =>
            obtain ⟨k, there, env⟩ := cells n linked
            have below : k < sh.nNodes := list.bound there
            rw [env] at same
            exact Nat.ne_of_lt below (handoverAddr_inj same)
        | false =>
            rw [own n bound linked] at same
            exact Nat.ne_of_lt bound (handoverAddr_inj same)
      refine ⟨?_, ?_, ?_⟩
      · intro m n bound bound' same
        rcases Nat.lt_succ_iff_lt_or_eq.mp bound with below | eq <;>
          rcases Nat.lt_succ_iff_lt_or_eq.mp bound' with below' | eq'
        · exact inj m n below below'
            (by simpa [Act.exec, Nat.ne_of_lt below, Nat.ne_of_lt below'] using same)
        · exact absurd (by simpa [Act.exec, Nat.ne_of_lt below, eq'] using same) (addr below)
        · exact absurd (by simpa [Act.exec, Nat.ne_of_lt below', eq] using same.symm) (addr below')
        · exact eq.trans eq'.symm
      · intro n bound linked
        rcases Nat.lt_succ_iff_lt_or_eq.mp bound with below | eq
        · have other := Nat.ne_of_lt below
          simp only [Act.exec, Function.update_of_ne other] at linked ⊢
          exact own n below linked
        · simp [Act.exec, eq]
      · intro n linked
        have below {m} (linked : sh.linked m = true) : m ≠ sh.nNodes :=
          Nat.ne_of_lt (list.bound linked)
        have linked : sh.linked n = true := by
          by_contra unlinked
          by_cases eq : n = sh.nNodes <;> simp [Act.exec, eq] at linked
          exact unlinked linked
        obtain ⟨k, there, env⟩ := cells n linked
        exact ⟨k, by simp [Act.exec, below there, there], by simp [Act.exec, below linked, env]⟩
  | @link m head unlinked bound =>
      refine ⟨inj, ?_, ?_⟩
      · intro n bound' linked
        by_cases eq : n = m <;> simp [Act.exec, eq] at linked
        exact own n bound' linked
      · have keeps {k} (there : sh.linked k = true)
            : (Act.exec sh (.link m head)).linked k = true := by
          by_cases eq : k = m <;> simp [Act.exec, eq, there]
        intro n linked
        by_cases eq : n = m
        · exact ⟨m, by simp [Act.exec], eq ▸ own m bound unlinked⟩
        · obtain ⟨k, there, env⟩ := cells n (by simpa [Act.exec, eq] using linked)
          exact ⟨k, keeps there, env⟩
  | @handOver c p since h their mine g same =>
      have ok := (inv.pos c p since (.space h their) (by simp)).1
      have whole
          : (Act.exec sh
              (.handOver h.who h.self mine ⟨c, g.ptr, g.began, g.ended, sh.time⟩)).env
            = sh.env ∘ Equiv.swap h.who h.self := by
        rw [Equiv.swap_comm, Equiv.comp_swap_eq_update]
        rfl
      have swapped {n} (P : NodeId → Prop) (who : P h.who) (self : P h.self) (there : P n)
          : P (Equiv.swap h.who h.self n) := by
        rw [Equiv.swap_apply_def]
        split
        · exact self
        · split
          · exact who
          · exact there
      refine ⟨?_, ?_, ?_⟩
      · intro m n bound bound' same
        rw [whole] at same
        have who := list.bound ok.who
        have self := list.bound ok.self
        have eq := inj _ _ (swapped (· < sh.nNodes) who self bound)
          (swapped (· < sh.nNodes) who self bound') same
        exact (Equiv.swap h.who h.self).injective eq
      · intro n bound linked
        have other {m} (there : sh.linked m = true) : n ≠ m := by
          rintro rfl
          rw [show sh.linked n = false from linked] at there
          cases there
        rw [whole, Function.comp, Equiv.swap_apply_of_ne_of_ne (other ok.who) (other ok.self)]
        exact own n bound linked
      · intro n linked
        rw [whole]
        exact cells _ (swapped (sh.linked · = true) ok.who ok.self linked)
  | _ => exact ⟨inj, own, cells⟩

/-- The access does not concern the envelope of the node. -/
def Act.sparesEnv (sh : Shared) (n : NodeId) : Act → Prop
  | .publish m _ | .goIdle m | .setOffer m _ => m ≠ n
  | .handOver who self _ _ => who ≠ n ∧ self ≠ n
  | .setEnvelope e _ => handoverNode e ≠ handoverNode (sh.env n)
  | .newNode => n ≠ sh.nNodes ∧ handoverNode (sh.env n) ≠ sh.nNodes
  | _ => True

theorem Act.sameEnv (act : Act) {n} (spares : act.sparesEnv sh n)
    : SameEnv sh (act.exec sh) n := by
  cases act with
  | publish m gen =>
      have other : n ≠ m := Ne.symm spares
      constructor <;> simp [exec, other]
  | goIdle m | setOffer m =>
      have other : n ≠ m := Ne.symm spares
      constructor <;> simp [exec, other]
  | handOver who self space given =>
      obtain ⟨who, self⟩ := spares
      constructor <;> simp [exec, Ne.symm who, Ne.symm self]
  | setEnvelope e p =>
      have other : handoverNode (sh.env n) ≠ handoverNode e := Ne.symm spares
      constructor <;> simp [exec, other]
  | newNode =>
      obtain ⟨other, apart⟩ := spares
      constructor <;> simp [exec, other, apart]
  | _ => exact ⟨rfl, rfl, rfl, rfl, rfl⟩

/-- A published generation belongs to a transaction that has not been helped. -/
theorem SessionInv.unhelped {S : Multiset (NodeId × Session)} (inv : SessionInv sh S) {n v}
    (has : Has S n v) (gen : tagOf (sh.control n) = GEN_TAG)
    : sh.gift n = none ∧ ∀ sh', EnvOk sh' n v = Enveloped sh' n := by
  have idle {P : Prop} (control : sh.control n = IDLE) : P := by
    rw [control] at gen
    cases gen
  have running {c g} (tx : InTx sh n c g) : sh.gift n = none := by
    rcases tx.control with ⟨_, none⟩ | ⟨tag, _⟩
    · exact none
    · rw [gen] at tag
      cases tag
  cases v with
  | none => exact idle (inv.quiet n has).control
  | some ses =>
      have ok := inv.ok n ses has
      cases ses with
      | published | candidate | filled => exact ⟨running ok.1, fun _ => rfl⟩
      | ended | helped => exact idle ok.1
      | _ => exact idle ok.1.control

/-- A new node brings its envelope with it. -/
theorem EnvInv.newNode (env : EnvInv sh r) (list : sh.ListOk) (inv : TxInv sh r)
    : Assigns (EnvOk (Act.exec sh .newNode)) (sessions r) := by
  refine env.nodes.keep ?_
  intro n v has ok
  rcases Nat.lt_or_ge n sh.nNodes with below | beyond
  · refine ok.keep (Act.sameEnv .newNode ⟨Nat.ne_of_lt below, ?_⟩)
    cases linked : sh.linked n with
    | true =>
        obtain ⟨k, there, env⟩ := env.map.cells n linked
        rw [env, handoverNode_addr]
        exact Nat.ne_of_lt (list.bound there)
    | false =>
        rw [env.map.own n below linked, handoverNode_addr]
        exact Nat.ne_of_lt below
  · cases v with
    | some ses =>
        have linked := inv.walks.linked n ses (mem_sessions.mp has)
        exact absurd (list.bound linked) (Nat.not_lt.mpr beyond)
    | none =>
        have quiet := inv.sessions.quiet n has
        have ok : Enveloped sh n := ok
        by_cases eq : n = sh.nNodes
        · constructor <;> simp [Act.exec, eq]
        · constructor <;> simp [Act.exec, eq, quiet.gift, ok.offer quiet.gift]

/-- A step keeps every envelope in its place. -/
theorem ProtoStep.envNodes (step : ProtoStep sh r old act new) (list : sh.ListOk)
    (inv : TxInv sh old) (env : EnvInv sh old)
    : Assigns (EnvOk (act.exec sh)) (ArcSwap.sessions new) := by
  have nodes := env.nodes
  have sess := inv.sessions
  -- Nobody notices an access that concerns no envelope.
  have spared {S : Multiset (NodeId × Session)} (spares : ∀ n, act.sparesEnv sh n) (n v)
      (_ : Has S n v) (ok : EnvOk sh n v)
      : EnvOk (act.exec sh) n v :=
    ok.keep (Act.sameEnv act (spares n))
  have others {S : Multiset (NodeId × Session)} {n}
      (spares : ∀ m, m ≠ n → act.sparesEnv sh m)
      (m v) (other : m ≠ n) (_ : Has S m v) (ok : EnvOk sh m v)
      : EnvOk (act.exec sh) m v :=
    ok.keep (Act.sameEnv act (spares m other))
  cases step with
  | quiet quiet => exact nodes.keep (spared fun n => by cases act <;> trivial)
  | inc =>
      simp only [sessions_own] at nodes ⊢
      exact nodes.keep (spared fun n => by unfold incAct; split <;> trivial)
  | newNode => exact env.newNode list inv
  | scan _ idle =>
      simp only [sessions_seen, sessions_session] at nodes ⊢
      exact nodes.start idle.absent (others fun _ _ => trivial) (nodes.all _ none idle.absent)
  | register | candidate | fill =>
      simp only [sessions_session, sessions_pending] at nodes ⊢
      exact nodes.change (others fun _ _ => trivial)
        (Enveloped.keep nodes.head (Act.sameEnv _ (by trivial)))
  | confirmFast | payBack | adopt | ownPaid | ownWasPaid | unusedPaid | unusedWasPaid =>
      simp only [sessions_session, sessions_pending, sessions_debt, sessions_own] at nodes ⊢
      exact nodes.stop (others fun _ _ => trivial)
        (Enveloped.keep nodes.head (Act.sameEnv _ (by trivial)))
  | announce _ idle =>
      simp only [sessions_session] at nodes ⊢
      exact nodes.start idle.absent (others fun _ _ => trivial)
        (Enveloped.keep (nodes.all _ none idle.absent) (Act.sameEnv _ (by trivial)))
  | publish =>
      simp only [sessions_session] at nodes sess ⊢
      have quiet : Quiet sh _ := sess.head.1
      have ok : Enveloped sh _ := nodes.head
      exact nodes.change (others fun _ other => other.symm)
        (.of_none quiet.gift (ok.offer quiet.gift))
  | @unhelped n c gen p same =>
      simp only [sessions_session, sessions_pending, sessions_debt] at nodes sess ⊢
      have tag : tagOf (sh.control n) = GEN_TAG := same ▸ sess.head.1.tag
      have none := (sess.unhelped (v := some _) (Multiset.mem_cons_self _ _) tag).1
      have ok : Enveloped sh n := nodes.head
      exact nodes.change (others fun _ other => other.symm)
        (.of_none (by simp [Act.exec]) (ok.offer none))
  | @helped n c gen p e g other envelope gift =>
      simp only [sessions_session, sessions_own] at nodes sess ⊢
      have ok : Enveloped sh n := nodes.head
      refine nodes.change (others fun _ other => other.symm) ?_
      rcases sess.head.1.control with ⟨same, _⟩ | ⟨tag, some⟩
      · exact absurd same other
      · obtain ⟨given, eq⟩ := Option.isSome_iff_exists.mp some
        obtain ⟨control, content⟩ := ok.gift given eq
        have same : sh.env n = e := by
          rw [envelope, tag, control, Nat.add_sub_cancel]
        have holds : sh.handover (handoverNode e) = g := by
          rw [← same, content, gift, eq]
          rfl
        exact ⟨same, congrArg Ptr.addr holds, congrArg Ptr.prov holds⟩
  | readEnvelope same prov =>
      simp only [sessions_session, sessions_own] at nodes ⊢
      obtain ⟨env, _⟩ := nodes.head
      exact nodes.change (others fun _ _ => trivial) ⟨env, same.symm, prov.symm⟩
  | @restore n c p e g =>
      simp only [sessions_session] at nodes sess ⊢
      obtain ⟨env, _⟩ := nodes.head
      have none : sh.gift n = none := sess.head.2.1
      exact nodes.change (others fun _ other => other.symm)
        (.of_none none (by simp [Act.exec, env]))
  | @mySpace c p since h their idle =>
      simp only [sessions_session, sessions_walk] at nodes sess ⊢
      have quiet := sess.quiet h.self idle.absent
      have ok : Enveloped sh h.self := nodes.all _ none idle.absent
      exact nodes.start idle.absent (others fun _ _ => trivial)
        ⟨(ok.offer quiet.gift).symm, rfl⟩
  | @fillSpace n mine g kept =>
      simp only [sessions_session] at nodes sess ⊢
      obtain ⟨env', offer⟩ := nodes.head
      have bound := list.bound (inv.walks.linked n _ (Multiset.mem_cons_self _ _))
      refine nodes.change ?_ ⟨env', offer, by simp [Act.exec]⟩
      intro m v other has ok
      rcases Nat.lt_or_ge m sh.nNodes with below | beyond
      · refine ok.keep (Act.sameEnv (.setEnvelope mine g.ptr) ?_)
        exact env' ▸ env.map.apart bound below other.symm
      · cases v with
        | some ses =>
            have inside : .session m ses ∈ r := mem_sessions.mp has
            have linked := inv.walks.linked m ses (Multiset.mem_cons_of_mem inside)
            exact absurd (list.bound linked) (Nat.not_lt.mpr beyond)
        | none =>
            have none : sh.gift m = none := by
              refine (sess.quiet m ?_).gift
              rw [Multiset.map_cons, Multiset.mem_cons, not_or]
              exact ⟨other, has⟩
            have ok : Enveloped sh m := ok
            exact .of_none none (ok.offer none)
  | @handOver c p since h their mine g same =>
      obtain ⟨ok, _⟩ : (Pos.space h their).Ok sh c := inv.walks.pos c p since _ (by simp)
      have gen : tagOf (sh.control h.who) = GEN_TAG := same ▸ ok.tag
      have theirs : their = sh.env h.who :=
        env.spaces c p since h their (Multiset.mem_cons_self _ _) same
      simp only [sessions_session, sessions_walk, sessions_own] at nodes sess ⊢
      obtain ⟨mine, _, content⟩ := nodes.head
      refine nodes.change ?_ (by simp [EnvOk, Act.exec, theirs])
      intro m v other has before
      by_cases eq : m = h.who
      · subst eq
        have plain := sess.unhelped (v := v) (by cases v <;> simpa [Has, other] using has) gen
        rw [plain.2] at before ⊢
        refine ⟨?_, ?_⟩
        · intro none
          simp [Act.exec] at none
        · intro given eq
          simp only [Act.exec, Function.update_self, Option.some.injEq] at eq
          subst eq
          simp [Act.exec, ok.other, mine, content]
      · exact before.keep
          (Act.sameEnv (.handOver h.who h.self _ _) ⟨Ne.symm eq, Ne.symm other⟩)
  | lose =>
      simp only [sessions_session, sessions_walk] at nodes sess ⊢
      obtain ⟨env, offer, _⟩ := nodes.head
      have none : sh.gift _ = none := sess.head.1.gift
      exact nodes.stop (others fun _ _ => trivial) (.of_none none (offer.trans env.symm))
  | @exchange c p since h their =>
      simp only [sessions_session, sessions_walk] at nodes sess ⊢
      have env : sh.env h.self = their := nodes.head
      have none : sh.gift h.self = none := sess.head.1.gift
      exact nodes.stop (others fun _ other => other.symm)
        (.of_none none (by simp [Act.exec, env]))
  | link | moveCell => exact nodes.keep (spared fun _ => trivial)
  | _ =>
      simp at nodes ⊢
      exact nodes.keep (spared fun _ => trivial)

/-- No node is without an envelope in place. -/
theorem ProtoStep.envOffers (step : ProtoStep sh r old act new) (list : sh.ListOk)
    (inv : TxInv sh old) (env : EnvInv sh old) {n} (bound : n < (act.exec sh).nNodes)
    : ∃ k, (act.exec sh).spaceOffer n = handoverAddr k := by
  have offers := env.offers n
  have nodes := env.nodes
  have linked {m s} (inside : .session m s ∈ old) : m < sh.nNodes :=
    list.bound (inv.walks.linked m s inside)
  cases step with
  | quiet quiet => cases act <;> first | exact offers bound | cases quiet
  | inc => revert bound; unfold incAct; split <;> exact offers
  | newNode =>
      rcases Nat.lt_succ_iff_lt_or_eq.mp bound with below | eq
      · simpa [Act.exec, Nat.ne_of_lt below] using offers below
      · exact ⟨n, by simp [Act.exec, eq]⟩
  | @restore m c p e g =>
      by_cases eq : n = m
      · simp only [sessions_session] at nodes
        obtain ⟨env', _⟩ := nodes.head
        obtain ⟨k, addr⟩ := env.map.addr (linked (Multiset.mem_cons_self _ _))
        exact ⟨k, by simp [Act.exec, eq, ← env', addr]⟩
      · simpa [Act.exec, eq] using offers bound
  | @exchange c p since h their =>
      by_cases eq : n = h.self
      · simp only [sessions_session, sessions_walk] at nodes
        have env' : sh.env h.self = their := nodes.head
        obtain ⟨k, addr⟩ :=
          env.map.addr (linked (m := h.self) (s := .exchanging their) (by simp))
        exact ⟨k, by simp [Act.exec, eq, ← env', addr]⟩
      · simpa [Act.exec, eq] using offers bound
  | _ => exact offers bound

/-- The envelope of a reader does not change during its transaction. -/
theorem ProtoStep.envStays (step : ProtoStep sh r old act new) (inv : TxInv sh old) {n}
    (bound : n < sh.nNodes) (gen : tagOf (sh.control n) = GEN_TAG)
    (gen' : tagOf ((act.exec sh).control n) = GEN_TAG)
    : (act.exec sh).env n = sh.env n := by
  have aligned {who self mine given} (eq : act = .handOver who self mine given) : tagOf mine = 0 :=
    envelopeAligned (eq ▸ step) inv
  have sess := inv.sessions
  cases step with
  | quiet quiet => cases act <;> first | rfl | cases quiet
  | inc => unfold incAct; split <;> rfl
  | newNode => simp [Act.exec, Nat.ne_of_lt bound]
  | @handOver c p since h their mine g same =>
      have other : n ≠ h.who := by
        rintro rfl
        have aligned := aligned rfl
        simp only [Act.exec, Function.update_self, tagOf, GEN_TAG, REPLACEMENT_TAG]
          at gen' aligned
        omega
      have other' : n ≠ h.self := by
        rintro rfl
        simp only [sessions_walk, sessions_session] at sess
        have quiet : Quiet sh h.self := sess.head.1
        rw [quiet.control] at gen
        cases gen
      simp [Act.exec, other, other']
  | _ => rfl

/-- A helper that has read its reader's envelope keeps knowing it. -/
theorem ProtoStep.envSpaces (step : ProtoStep sh r old act new) (list : sh.ListOk)
    (inv : TxInv sh old) (fresh : act.Fresh old) (env : EnvInv sh old) {c p since h their}
    (inside : .walk c p since (.space h their) ∈ new)
    (same : (act.exec sh).control h.who = h.control)
    : their = (act.exec sh).env h.who := by
  have keeps (walk : .walk c p since (.space h their) ∈ old)
      : their = (act.exec sh).env h.who := by
    obtain ⟨ok, _⟩ : (Pos.space h their).Ok sh c := inv.walks.pos c p since _ walk
    obtain ⟨before, _⟩ := step.current list inv fresh walk rfl ok.tag ok.who same
    have stays := step.envStays inv (list.bound ok.who) (before ▸ ok.tag) (same ▸ ok.tag)
    rw [stays]
    exact env.spaces c p since h their walk before
  generalize eq : Pos.space h their = pos at inside
  cases step.walkFrom inside with
  | kept there => exact keeps (eq ▸ step.frame there)
  | begun => cases eq
  | moved walk move =>
      cases move with
      | head | leave => exact absurd eq (Pos.ne_at nofun nofun)
      | help _ _ _ _ dispatch | again _ dispatch | retry dispatch => cases dispatch <;> cases eq
      | theirSpace =>
          cases eq
          obtain ⟨ok, _⟩ : (Pos.agrees h).Ok sh c := inv.walks.pos c p since _ walk
          have same : sh.control h.who = h.control := same
          have gen : tagOf (sh.control h.who) = GEN_TAG := same ▸ ok.tag
          obtain ⟨ses, _, running, _⟩ := inv.sessions.tx gen
          obtain ⟨none, plain⟩ := inv.sessions.unhelped (v := some ses) running gen
          have theirs := env.nodes.all h.who (some ses) running
          rw [plain] at theirs
          exact theirs.offer none
      | mySpace =>
          cases eq
          exact keeps walk
      | _ => cases eq

/-- A step keeps the envelopes in order. -/
theorem ProtoStep.envelopes (step : ProtoStep sh r old act new) (list : sh.ListOk)
    (inv : TxInv sh old) (fresh : act.Fresh old) (env : EnvInv sh old)
    : EnvInv (act.exec sh) new :=
  ⟨step.envMap list inv.walks env.map, step.envNodes list inv env,
    fun _ => step.envOffers list inv env, fun _ _ _ _ _ => step.envSpaces list inv fresh env⟩

end step

theorem EnvInv.tick {sh : Shared} {M : Tokens} (env : EnvInv sh M) (now : Nat)
    : EnvInv { sh with time := now } M where
  map := ⟨env.map.inj, env.map.own, env.map.cells⟩
  nodes := env.nodes.keep fun _ _ _ ok => ok.keep ⟨rfl, rfl, rfl, rfl, rfl⟩
  offers := env.offers
  spaces := env.spaces

theorem EnvInv.init : EnvInv .init 0 where
  map := ⟨by simp [Shared.init], by simp [Shared.init], by simp [Shared.init]⟩
  nodes := by
    refine ⟨by simp [sessions], ?_⟩
    intro n v has
    cases v with
    | none => exact .of_none rfl rfl
    | some ses => simp [sessions, Has] at has
  offers := by simp [Shared.init]
  spaces c p since h their walk := absurd walk (Multiset.notMem_zero _)

end ArcSwap
