import ArcSwap.Proofs.Containers

/-! The sessions of the protocol. A node is idle whenever nobody is in a session on it, and
the control word of a running transaction is its own generation or a replacement.
-/

namespace ArcSwap

/-- The sessions among the tokens, with their nodes. -/
def sessions (M : Tokens) : Multiset (NodeId × Session) :=
  M.filterMap fun
    | .session n ses => some (n, ses)
    | _ => none

section sessions

variable {M : Tokens}

@[simp]
theorem sessions_session {n ses}
    : sessions (.session n ses ::ₘ M) = (n, ses) ::ₘ sessions M :=
  Multiset.filterMap_cons_some _ _ _ rfl

@[simp]
theorem sessions_own {p} : sessions (.own p ::ₘ M) = sessions M :=
  Multiset.filterMap_cons_none _ _ rfl

@[simp]
theorem sessions_debt {p n i} : sessions (.debt p n i ::ₘ M) = sessions M :=
  Multiset.filterMap_cons_none _ _ rfl

@[simp]
theorem sessions_pending {p n i} : sessions (.pending p n i ::ₘ M) = sessions M :=
  Multiset.filterMap_cons_none _ _ rfl

@[simp]
theorem sessions_dying {p} : sessions (.dying p ::ₘ M) = sessions M :=
  Multiset.filterMap_cons_none _ _ rfl

@[simp]
theorem sessions_seen {p} : sessions (.seen p ::ₘ M) = sessions M :=
  Multiset.filterMap_cons_none _ _ rfl

@[simp]
theorem sessions_walk {c p since pos} : sessions (.walk c p since pos ::ₘ M) = sessions M :=
  Multiset.filterMap_cons_none _ _ rfl

@[simp]
theorem sessions_finished {c p since} : sessions (.finished c p since ::ₘ M) = sessions M :=
  Multiset.filterMap_cons_none _ _ rfl

@[simp]
theorem sessions_closing {c} : sessions (.closing c ::ₘ M) = sessions M :=
  Multiset.filterMap_cons_none _ _ rfl

@[simp]
theorem sessions_closed {c} : sessions (.closed c ::ₘ M) = sessions M :=
  Multiset.filterMap_cons_none _ _ rfl

theorem mem_sessions {n ses} : (n, ses) ∈ sessions M ↔ .session n ses ∈ M := by
  constructor
  · intro inside
    obtain ⟨tok, there, eq⟩ := (Multiset.mem_filterMap _ _).mp inside
    cases tok with
    | session => cases eq; exact there
    | _ => cases eq
  · exact fun there => (Multiset.mem_filterMap _ _).mpr ⟨_, there, rfl⟩

end sessions

-----------------------------------------------------------------------------------------
-- What a session knows
-----------------------------------------------------------------------------------------

/-- The node is ready for the next transaction. -/
structure Quiet (sh : Shared) (n : NodeId) : Prop where
  control : sh.control n = IDLE
  gift : sh.gift n = none
  slot : sh.slot n HELPING = NONE

/-- The transaction `gen` for the storage `c` is running, or a helper has ended it. -/
structure InTx (sh : Shared) (n : NodeId) (c : CellId) (gen : Nat) : Prop where
  live : sh.status c = .live
  addr : sh.activeAddr n = sh.cellAddr c
  tag : tagOf gen = GEN_TAG
  control
    : sh.control n = gen ∧ sh.gift n = none
      ∨ tagOf (sh.control n) = REPLACEMENT_TAG ∧ (sh.gift n).isSome

/-- The slot holds `p` unless a writer has paid it. -/
def Owes (sh : Shared) (n i : Nat) (p : Ptr) : Prop :=
  sh.slot n i = p.addr ∨ sh.slot n i = NONE

def Session.Ok (sh : Shared) (n : NodeId) : Session → Prop
  | .scanned i _ => Quiet sh n ∧ i < DEBT_SLOT_CNT ∧ sh.slot n i = NONE
  | .registered i p => Quiet sh n ∧ i < DEBT_SLOT_CNT ∧ Owes sh n i p
  | .announced c counter =>
      Quiet sh n ∧ sh.status c = .live ∧ sh.activeAddr n = sh.cellAddr c
      ∧ counter % 4 = 0 ∧ counter ≠ 0
  | .published c gen => InTx sh n c gen ∧ sh.slot n HELPING = NONE
  | .candidate c gen _ => InTx sh n c gen ∧ sh.slot n HELPING = NONE
  | .filled c gen p => InTx sh n c gen ∧ Owes sh n HELPING p
  | .ended p => sh.control n = IDLE ∧ sh.gift n = none ∧ Owes sh n HELPING p
  | .helped _ p e _ =>
      sh.control n = IDLE ∧ sh.gift n = none ∧ Owes sh n HELPING p ∧ tagOf e = 0
  | .envelope mine => Quiet sh n ∧ tagOf mine = 0
  | .offering mine _ => Quiet sh n ∧ tagOf mine = 0
  | .exchanging their => Quiet sh n ∧ tagOf their = 0

/-- An access leaves the protocol fields of a node alone, apart from paying slots. -/
structure Steady (sh sh' : Shared) (n : NodeId) : Prop where
  control : sh'.control n = sh.control n
  gift : sh'.gift n = sh.gift n
  activeAddr : sh'.activeAddr n = sh.activeAddr n
  slot : ∀ i, sh'.slot n i = sh.slot n i ∨ sh'.slot n i = NONE

/-- The storage stays where it is. -/
def Stays (sh sh' : Shared) (c : CellId) : Prop :=
  sh.status c = .live → sh'.status c = .live ∧ sh'.cellAddr c = sh.cellAddr c

section steady

variable {sh sh' : Shared} {n : NodeId}

theorem Steady.none (steady : Steady sh sh' n) {i} (empty : sh.slot n i = NONE)
    : sh'.slot n i = NONE := by
  rcases steady.slot i with same | none
  · rw [same, empty]
  · exact none

theorem Steady.holds (steady : Steady sh sh' n) {i p} (holds : Owes sh n i p)
    : Owes sh' n i p := by
  rcases steady.slot i with same | none
  · rwa [Owes, same]
  · exact .inr none

theorem Steady.quiet (steady : Steady sh sh' n) (quiet : Quiet sh n) : Quiet sh' n :=
  ⟨steady.control ▸ quiet.control, steady.gift ▸ quiet.gift, steady.none quiet.slot⟩

theorem Steady.inTx (steady : Steady sh sh' n) {c gen} (tx : InTx sh n c gen)
    (stays : Stays sh sh' c)
    : InTx sh' n c gen := by
  obtain ⟨live, addr⟩ := stays tx.live
  refine ⟨live, ?_, tx.tag, ?_⟩
  · rw [steady.activeAddr, addr, tx.addr]
  · rw [steady.control, steady.gift]
    exact tx.control

/-- What a session knows stays true when others take a step. -/
theorem Session.Ok.steady {ses : Session} (ok : ses.Ok sh n) (steady : Steady sh sh' n)
    (stays : ∀ c, ses.cell = some c → Stays sh sh' c)
    : ses.Ok sh' n := by
  cases ses with
  | scanned i p => exact ⟨steady.quiet ok.1, ok.2.1, steady.none ok.2.2⟩
  | registered i p => exact ⟨steady.quiet ok.1, ok.2.1, steady.holds ok.2.2⟩
  | announced c counter =>
      obtain ⟨quiet, live, addr, aligned⟩ := ok
      obtain ⟨live', addr'⟩ := stays c rfl live
      refine ⟨steady.quiet quiet, live', ?_, aligned⟩
      rw [steady.activeAddr, addr', addr]
  | published c gen => exact ⟨steady.inTx ok.1 (stays c rfl), steady.none ok.2⟩
  | candidate c gen p => exact ⟨steady.inTx ok.1 (stays c rfl), steady.none ok.2⟩
  | filled c gen p => exact ⟨steady.inTx ok.1 (stays c rfl), steady.holds ok.2⟩
  | ended p =>
      exact ⟨steady.control ▸ ok.1, steady.gift ▸ ok.2.1, steady.holds ok.2.2⟩
  | helped c p e r =>
      exact ⟨steady.control ▸ ok.1, steady.gift ▸ ok.2.1, steady.holds ok.2.2.1, ok.2.2.2⟩
  | envelope mine => exact ⟨steady.quiet ok.1, ok.2⟩
  | offering mine r => exact ⟨steady.quiet ok.1, ok.2⟩
  | exchanging their => exact ⟨steady.quiet ok.1, ok.2⟩

end steady

/-- The access writes protocol fields of the node other than by paying. -/
def Act.touches (n : NodeId) : Act → Prop
  | .register m _ _ _ | .announce m _ | .publish m _ | .handOver m _ _ _ | .goIdle m => m = n
  | _ => False

/-- Accesses to other nodes leave a node alone. -/
theorem Act.steady {sh : Shared} {n : NodeId} {act : Act} (away : ¬ act.touches n)
    (old : act = .newNode → n ≠ sh.nNodes)
    : Steady sh (act.exec sh) n := by
  cases act with
  | newNode =>
      have other := old rfl
      constructor <;> simp [exec, other]
  | settle m i =>
      refine ⟨rfl, rfl, rfl, fun j => ?_⟩
      simp only [exec, set₂]
      split <;> simp
  | register m i p load =>
      have other : n ≠ m := fun eq => away eq.symm
      constructor <;> simp [exec, set₂, other]
  | announce m a =>
      have other : n ≠ m := fun eq => away eq.symm
      constructor <;> simp [exec, other]
  | publish m gen =>
      have other : n ≠ m := fun eq => away eq.symm
      constructor <;> simp [exec, other]
  | handOver m self space given =>
      have other : n ≠ m := fun eq => away eq.symm
      constructor <;> simp [exec, other]
  | goIdle m =>
      have other : n ≠ m := fun eq => away eq.symm
      constructor <;> simp [exec, other]
  | _ => exact ⟨rfl, rfl, rfl, fun _ => .inl rfl⟩

-----------------------------------------------------------------------------------------
-- The invariant
-----------------------------------------------------------------------------------------

/-- What holds of the nodes together with the sessions on them. -/
structure SessionInv (sh : Shared) (S : Multiset (NodeId × Session)) : Prop where
  one : (S.map Prod.fst).Nodup
  ok : ∀ n ses, (n, ses) ∈ S → ses.Ok sh n
  quiet : ∀ n, n ∉ S.map Prod.fst → Quiet sh n

/-- A step leaves the other nodes and their sessions in order. -/
structure Others (sh sh' : Shared) (n : NodeId) (S : Multiset (NodeId × Session))
    : Prop where
  ok : ∀ m ses, m ≠ n → (m, ses) ∈ S → ses.Ok sh m → ses.Ok sh' m
  quiet : ∀ m, m ≠ n → m ∉ S.map Prod.fst → Quiet sh m → Quiet sh' m

section invariant

variable {sh sh' : Shared} {n : NodeId} {S : Multiset (NodeId × Session)} {ses ses' : Session}

theorem SessionInv.absent (inv : SessionInv sh ((n, ses) ::ₘ S)) : n ∉ S.map Prod.fst := by
  have one := inv.one
  rw [Multiset.map_cons, Multiset.nodup_cons] at one
  exact one.1

theorem SessionInv.head (inv : SessionInv sh ((n, ses) ::ₘ S)) : ses.Ok sh n :=
  inv.ok n ses (Multiset.mem_cons_self _ _)

/-- There is one session on a node at most. -/
theorem SessionInv.unique {M : Tokens} (inv : SessionInv sh (sessions M))
    (inside : .session n ses ∈ M) (inside' : .session n ses' ∈ M)
    : ses = ses' := by
  have same := Multiset.inj_on_of_nodup_map inv.one _ (mem_sessions.mpr inside) _
    (mem_sessions.mpr inside') rfl
  exact (Prod.mk.inj same).2

/-- The session on a node goes on. -/
theorem SessionInv.change (inv : SessionInv sh ((n, ses) ::ₘ S)) (others : Others sh sh' n S)
    (ok : ses'.Ok sh' n)
    : SessionInv sh' ((n, ses') ::ₘ S) := by
  refine ⟨by simpa using inv.one, fun m ses₁ inside => ?_, fun m absent => ?_⟩
  · rcases Multiset.mem_cons.mp inside with eq | there
    · cases eq
      exact ok
    · have other : m ≠ n := by
        rintro rfl
        exact inv.absent (Multiset.mem_map_of_mem Prod.fst there)
      exact others.ok m ses₁ other there (inv.ok m ses₁ (Multiset.mem_cons_of_mem there))
  · simp only [Multiset.map_cons, Multiset.mem_cons, not_or] at absent
    exact others.quiet m absent.1 absent.2 (inv.quiet m (by simpa using absent))

/-- A session on an idle node starts. -/
theorem SessionInv.start (inv : SessionInv sh S) (idle : n ∉ S.map Prod.fst)
    (others : Others sh sh' n S) (ok : ses.Ok sh' n)
    : SessionInv sh' ((n, ses) ::ₘ S) := by
  refine ⟨?_, fun m ses₁ inside => ?_, fun m absent => ?_⟩
  · rw [Multiset.map_cons, Multiset.nodup_cons]
    exact ⟨idle, inv.one⟩
  · rcases Multiset.mem_cons.mp inside with eq | there
    · cases eq
      exact ok
    · have other : m ≠ n := by
        rintro rfl
        exact idle (Multiset.mem_map_of_mem Prod.fst there)
      exact others.ok m ses₁ other there (inv.ok m ses₁ there)
  · simp only [Multiset.map_cons, Multiset.mem_cons, not_or] at absent
    exact others.quiet m absent.1 absent.2 (inv.quiet m absent.2)

/-- The session on a node ends. -/
theorem SessionInv.stop (inv : SessionInv sh ((n, ses) ::ₘ S)) (others : Others sh sh' n S)
    (quiet : Quiet sh' n)
    : SessionInv sh' S := by
  refine ⟨?_, fun m ses₁ inside => ?_, fun m absent => ?_⟩
  · have one := inv.one
    rw [Multiset.map_cons, Multiset.nodup_cons] at one
    exact one.2
  · have other : m ≠ n := by
      rintro rfl
      exact inv.absent (Multiset.mem_map_of_mem Prod.fst inside)
    exact others.ok m ses₁ other inside (inv.ok m ses₁ (Multiset.mem_cons_of_mem inside))
  · by_cases eq : m = n
    · exact eq ▸ quiet
    · exact others.quiet m eq absent (inv.quiet m (by simp [eq, absent]))

/-- No session changes. -/
theorem SessionInv.keep (inv : SessionInv sh S)
    (ok : ∀ m ses, (m, ses) ∈ S → ses.Ok sh m → ses.Ok sh' m)
    (quiet : ∀ m, m ∉ S.map Prod.fst → Quiet sh m → Quiet sh' m)
    : SessionInv sh' S :=
  ⟨inv.one, fun m ses inside => ok m ses inside (inv.ok m ses inside),
    fun m absent => quiet m absent (inv.quiet m absent)⟩

end invariant

end ArcSwap
