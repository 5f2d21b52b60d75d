import ArcSwap.Proofs.Assertions
import ArcSwap.Proofs.DebtRuns
import ArcSwap.Proofs.NodeList
import ArcSwap.Proofs.NodeOwners

/-! What the cooldown of a node protects from. `check_cooldown` reads `in_use` and
`active_writers` before it ends the cooldown, and a thread that pauses there may end a later
cooldown than the one it has checked. As long as that does not happen, a node gets a new owner
only after every writer that came before the cooldown has left.
-/

namespace ArcSwap

open Bags GuardedRuns

/-- `check_cooldown` does not end a later cooldown period than the one it has checked. -/
def Prompt (s : State) (l : Label) : Prop :=
  ∀ tmp n period rest, (s.thr l.thread).stack = .get tmp (.release n period) :: rest
    → s.sh.inUse n = NODE_COOLDOWN → period = s.sh.epoch n

/-- The pass of the loop in `Slots::help` that a frame is in. -/
def Frame.helping : Frame → Option Helping
  | .pay _ _ _ _ pc => pc.helping
  | _ => none

/-- As long as a writer stays that came before a cooldown, the cooldown lasts. -/
def Watched (sh : Shared) (H : Holds) : Prop :=
  ∀ n k, .writes n k ∈ H → k < sh.epoch n → sh.inUse n = NODE_COOLDOWN

/-- What a writer has read belongs to the owner of the node, or the node cools down. -/
def Helping.Recent (sh : Shared) (h : Helping) : Prop :=
  h.period < sh.epoch h.who ∨ sh.inUse h.who = NODE_USED ∧ sh.claimedAt h.who ≤ h.seen

-----------------------------------------------------------------------------------------
-- One step
-----------------------------------------------------------------------------------------

section step

variable {cfg : Config} {s s' : State} {t : ThreadId} {l : Label} {δ : Change} {rest : List Frame}
  {sh : Shared} {tls : Tls} {r old new : ArcSwap.Holds} {act : Act} {m : NodeId} {h : Helping}

/-- `check_cooldown` ends the cooldown. -/
theorem Move.releases (move : Move cfg s tls rest δ) (uses : δ.act = .setUse m NODE_UNUSED)
    : ∃ tmp period, δ.old = [.get tmp (.release m period)]
        ∧ s.sh.inUse m = NODE_COOLDOWN := by
  obtain ⟨fr, old, step⟩ := move.guarded (by rw [uses]; trivial)
  generalize δ.act = act at step uses
  generalize δ.new = new at step
  cases step with
  | get step =>
      cases step with
      | release cooldown =>
          cases uses
          exact ⟨_, _, old, cooldown⟩
      | claim => simp [NODE_USED, NODE_UNUSED] at uses
      | _ => cases uses
  | cool step => cases step <;> cases uses
  | load step =>
      exfalso
      cases step <;> try cases uses
      unfold incAct at uses
      split at uses <;> cases uses

/-- No writer stays behind when a cooldown ends that has been checked. -/
theorem State.PoolOk.young (ok : s.PoolOk) (member : t < s.nThr)
    (top : (s.thr t).stack = δ.old ++ rest) (move : Move cfg s (s.thr t).tls rest δ)
    (prompt : ∀ tmp n period, δ.old = [.get tmp (.release n period)]
      → s.sh.inUse n = NODE_COOLDOWN → period = s.sh.epoch n)
    (uses : δ.act = .setUse m NODE_UNUSED) {k} (writes : .writes m k ∈ s.holds)
    : s.sh.epoch m ≤ k := by
  obtain ⟨tmp, period, old, cooldown⟩ := move.releases uses
  have same := prompt tmp m period old cooldown
  have held : .releases m period ∈ s.holds := by
    have inside : .get tmp (.release m period) ∈ (s.thr t).stack := by simp [top, old]
    refine State.mem_shares_of_frame (S := holdShare) member inside ?_
    simp [holdShare, Frame.holds, GetPc.holds]
  obtain ⟨_, _, young⟩ := ok.pool.releasesOk m period held
  exact same ▸ young same k writes

theorem PoolStep.watched (step : PoolStep sh r old act new) (inv : PoolInv sh old)
    (watched : Watched sh old)
    (young : ∀ n k, act = .setUse n NODE_UNUSED → .writes n k ∈ old → sh.epoch n ≤ k)
    : Watched (act.exec sh) new := by
  intro n k held before
  have keep (held : .writes n k ∈ old) (epoch : (act.exec sh).epoch = sh.epoch)
      (inUse : (act.exec sh).inUse = sh.inUse)
      : (act.exec sh).inUse n = NODE_COOLDOWN := by
    rw [inUse]
    exact watched n k held (epoch ▸ before)
  have looks {o : Option NodeId} : .writes n k ∉ atNode o := by
    cases o <;> simp [atNode]
  cases step with
  | quiet quiet | drop quiet =>
      cases act <;> first | exact keep (by simpa using held) rfl rfl | cases quiet
  | head | next =>
      have held := (Multiset.mem_add.mp held).resolve_left looks
      exact keep (by simp [held]) rfl rfl
  | checked | notReleased | link | retry => exact keep (by simpa using held) rfl rfl
  | @release m period cooldown =>
      have held : .writes n k ∈ Hold.releases m period ::ₘ r := by simp [held]
      by_cases same : n = m
      · subst same
        exact absurd before (Nat.not_lt.mpr (young n k rfl held))
      · simpa [Act.exec, same] using watched n k held before
  | @claim m unused =>
      have held : .writes n k ∈ Hold.looks m ::ₘ r := by simpa using held
      have cooldown := watched n k held before
      have other : n ≠ m := by
        intro same
        rw [same, unused] at cooldown
        cases cooldown
      simpa [Act.exec, other] using cooldown
  | fresh =>
      have held : .writes n k ∈ r := by simpa using held
      have other : n ≠ sh.nNodes := Nat.ne_of_lt (inv.writesBound n k held).1
      simpa [Act.exec, other] using watched n k held before
  | @reserve m h =>
      rcases Multiset.mem_cons.mp held with eq | held
      · cases eq
        exact absurd before (Nat.lt_irrefl _)
      · exact keep held rfl rfl
  | leave => exact keep (by simp [held]) rfl rfl
  | leaveOn =>
      have held := (Multiset.mem_add.mp held).resolve_left looks
      exact keep (by simp [held]) rfl rfl
  | @cooldown m =>
      have held : .writes n k ∈ Hold.owned m ::ₘ r := by simp [held]
      by_cases same : n = m
      · simp [Act.exec, same]
      · simp only [Act.exec, Function.update_of_ne same] at before ⊢
        exact watched n k held before

theorem Act.claimed (act : Act) (claimed : ∀ n, sh.claimedAt n ≤ sh.time) (n : NodeId)
    : (act.exec sh).claimedAt n ≤ sh.time := by
  cases act with
  | setUse m v =>
      simp only [exec]
      split
      · by_cases same : n = m
        · simp [same]
        · simpa [same] using claimed n
      · exact claimed n
  | newNode =>
      by_cases same : n = sh.nNodes
      · simp [exec, same]
      · simpa [exec, same] using claimed n
  | _ => exact claimed n

/-- What a writer has read stays recent until the writer leaves. -/
theorem Helping.Recent.keep (recent : h.Recent s.sh) (ok : s.PoolOk)
    (move : Move cfg s tls rest δ) (held : .writes h.who h.period ∈ s.holds)
    : h.Recent (δ.act.exec s.sh) := by
  obtain ⟨bound, le⟩ := ok.pool.writesBound h.who h.period held
  have grows : s.sh.epoch h.who ≤ (δ.act.exec s.sh).epoch h.who := by
    cases act : δ.act with
    | cooldown n =>
        simp only [Act.exec, Function.update_apply]
        split
        · subst n
          exact Nat.le_succ _
        · exact le_rfl
    | _ => exact le_rfl
  rcases recent with before | ⟨used, claimed⟩
  · exact .inl (before.trans_le grows)
  · rcases δ.act.inUse_cases s.sh h.who with same | cools | ⟨v, use⟩ | ⟨_, new⟩
    · refine .inr ⟨same.trans used, ?_⟩
      cases act : δ.act with
      | setUse n v =>
          have other : h.who ≠ n ∨ v ≠ NODE_USED := by
            by_contra both
            simp only [not_or, not_not] at both
            obtain ⟨rfl, rfl⟩ := both
            rcases move.uses act with ⟨eq, _⟩ | ⟨_, unused⟩
            · cases eq
            · rw [used] at unused
              cases unused
          simp only [Act.exec]
          split
          · rw [Function.update_of_ne (other.resolve_right (not_not.mpr ‹_›))]
            exact claimed
          · exact claimed
      | newNode => simpa [Act.exec, Nat.ne_of_lt bound] using claimed
      | _ => exact claimed
    · refine .inl ?_
      simpa [cools, Act.exec] using Nat.lt_succ_of_le le
    · rcases move.uses use with ⟨_, cooldown⟩ | ⟨_, unused⟩
      · rw [used] at cooldown
        cases cooldown
      · rw [used] at unused
        cases unused
    · exact absurd bound (new ▸ Nat.lt_irrefl _)

/-- A frame that helps holds a reservation. -/
theorem Frame.writes_of_helping {fr : Frame} (helping : fr.helping = some h)
    : .writes h.who h.period ∈ fr.holds := by
  cases fr with
  | pay c p since loc pc =>
      cases pc <;> cases helping <;> simp [holds, PayPc.holds, walking]
  | _ => cases helping

section helping

/-- None of the frames is in a pass of the loop in `Slots::help`. -/
def helpsNobody (frames : List Frame) : Bool :=
  frames.all fun fr => fr.helping.isNone

theorem helping_none {frames : List Frame} {fr} (nobody : helpsNobody frames = true)
    (inside : fr ∈ frames)
    : fr.helping ≠ some h := by
  intro helping
  have none := List.all_eq_true.mp nobody fr inside
  rw [helping] at none
  cases none

theorem Dispatch.helping {c p since loc g frames} (step : Dispatch c p since loc g frames) {fr}
    (inside : fr ∈ frames) (helping : fr.helping = some h)
    : h = g := by
  cases step with
  | active =>
      obtain rfl := List.mem_singleton.mp inside
      exact (Option.some.inj helping).symm
  | slots => exact (helping_none rfl inside helping).elim
  | invalid => exact (helping_none rfl inside helping).elim

theorem PayPc.helping_at (o : Option NodeId) : (PayPc.at o).helping = none := by
  cases o <;> rfl

theorem PayPc.helping_nextSlot (n : NodeId) (period j : Nat)
    : (PayPc.nextSlot n period j).helping = none := by
  unfold nextSlot
  split <;> rfl

/-- What a writer with a reservation reads in a step. -/
structure Helping.Now (h : Helping) (sh : Shared) (H : Holds) : Prop where
  control : h.control = sh.control h.who
  seen : h.seen = sh.time
  writes : .writes h.who h.period ∈ H

/-- A writer in `help` keeps what it has read or reads the word anew. -/
theorem PayStep.helping {c p since loc pc act frames}
    (step : PayStep cfg sh tls c p since loc pc act frames) {fr} (inside : fr ∈ frames)
    (helping : fr.helping = some h)
    : pc.helping = some h ∨ h.Now sh pc.holds := by
  have quiet (nobody : helpsNobody frames = true) : pc.helping = some h ∨ h.Now sh pc.holds :=
    (helping_none nobody inside helping).elim
  cases step with
  | help _ dispatch | again _ dispatch =>
      cases dispatch.helping inside helping
      exact .inr ⟨rfl, rfl, by simp [PayPc.holds, walking]⟩
  | lost =>
      obtain rfl | rfl := List.mem_pair.mp inside
      · cases helping
      · cases helping
        exact .inr ⟨rfl, rfl, by simp [PayPc.holds, walking]⟩
  | agrees =>
      simp only [List.mem_cons, List.not_mem_nil, or_false] at inside
      rcases inside with rfl | rfl | rfl
      · cases helping
      · cases helping
      · exact .inl helping
  | differs | theirSpace | mySpace | fillSpace =>
      obtain rfl := List.mem_singleton.mp inside
      exact .inl helping
  | head | leave =>
      obtain rfl := List.mem_singleton.mp inside
      exact absurd (helping.symm.trans (PayPc.helping_at _)) (by simp)
  | skip | bump =>
      obtain rfl := List.mem_singleton.mp inside
      exact absurd (helping.symm.trans (PayPc.helping_nextSlot _ _ _)) (by simp)
  | _ => exact quiet rfl

theorem finishLoad_helping (c began now loc g)
    : helpsNobody (finishLoad c began now loc g) = true := by
  cases loc with
  | tls => rfl
  | tmp node => cases node <;> rfl

theorem LoadStep.helping {c began loc pc act tls' frames}
    (step : LoadStep cfg sh tls c began loc pc act tls' frames)
    : helpsNobody frames = true := by
  cases step with
  | confirmed | alreadyPaid | ownPaid | unusedPaid => exact finishLoad_helping _ _ _ _ _
  | _ => rfl

theorem ResumeStep.helping {caller v frames} (step : ResumeStep sh caller v frames) {fr}
    (inside : fr ∈ frames) (helping : fr.helping = some h)
    : caller.helping = some h := by
  have quiet (nobody : helpsNobody frames = true) : caller.helping = some h :=
    (helping_none nobody inside helping).elim
  cases step with
  | loadDec => exact quiet (finishLoad_helping _ _ _ _ _)
  | payLost dispatch =>
      cases dispatch.helping inside helping
      rfl
  | payReplace =>
      obtain rfl := List.mem_singleton.mp inside
      exact helping
  | @payDec c p since loc =>
      refine quiet ?_
      cases loc with
      | tls => rfl
      | tmp node => cases node <;> rfl
  | loadUnwind step | unwind step => exact quiet (by cases step <;> rfl)
  | _ => exact quiet rfl

theorem CallStep.helping (step : CallStep s tls rest δ) : helpsNobody δ.new = true := by
  cases step with
  | start _ entry | startWith _ _ _ entry => cases entry <;> rfl
  | exit => cases node : tls.node <;> rfl
  | _ => rfl

/-- A frame that helps was there before, or it has just read the word. -/
theorem Move.helping (move : Move cfg s tls rest δ) {fr} (inside : fr ∈ δ.new)
    (helping : fr.helping = some h)
    : (∃ fr' ∈ δ.old, fr'.helping = some h) ∨ h.Now s.sh (listed Frame.holds δ.old) := by
  have quiet (nobody : helpsNobody δ.new = true) : False := helping_none nobody inside helping
  cases move with
  | frame step =>
      cases step with
      | pay step =>
          rcases step.helping inside helping with same | read
          · exact .inl ⟨_, List.mem_singleton_self _, same⟩
          · refine .inr ⟨read.control, read.seen, ?_⟩
            simpa [Frame.holds] using Or.inl read.writes
      | load step => exact (quiet step.helping).elim
      | get step => exact (quiet (by cases step <;> rfl)).elim
      | cool step => exact (quiet (by cases step <;> rfl)).elim
      | dec step => exact (quiet (by cases step <;> rfl)).elim
      | into step => exact (quiet (by cases step <;> rfl)).elim
      | guardDrop step => exact (quiet (by cases step <;> rfl)).elim
      | _ => exact (quiet rfl).elim
  | resume _ step => exact .inl ⟨_, by simp, step.helping inside helping⟩
  | deliver => cases inside
  | call _ step => exact (quiet step.helping).elim

end helping

end step

-----------------------------------------------------------------------------------------
-- Every run
-----------------------------------------------------------------------------------------

section runs

variable {cfg : Config} {s s' : State} {t : ThreadId} {l : Label} {δ : Change} {rest : List Frame}
  {m : NodeId} {n : Nat}

/-- A node with a running transaction is in use. -/
theorem State.TxOk.used (ok : s.TxOk) (gen : tagOf (s.sh.control m) = GEN_TAG)
    : s.sh.inUse m = NODE_USED := by
  obtain ⟨ses, c, inside, _⟩ := ok.tx.sessions.tx gen
  rcases State.mem_tokens (mem_sessions.mp inside)
    with ⟨t, member, fr, there, held⟩ | ⟨_, _, u, _, eq⟩
  · have calm := (ok.calm t member).held there held
    have owned := (Frame.session held calm.settled).1
    refine ok.pool.pool.used ?_
    rcases Multiset.mem_add.mp owned with tls | frame
    · exact State.mem_shares_of_tls (S := holdShare) member tls
    · exact State.mem_shares_of_frame (S := holdShare) member there frame
  · cases u <;> simp [UserVal.token] at eq

/-- Writers and cooldowns, in a run that ends only the cooldowns it has checked. -/
structure State.Cooling (s : State) : Prop where
  watched : Watched s.sh s.holds
  claimed : ∀ m, s.sh.claimedAt m ≤ s.sh.time
  recent
    : ∀ t < s.nThr, ∀ fr ∈ (s.thr t).stack, ∀ h, fr.helping = some h
      → tagOf h.control = GEN_TAG → h.Recent s.sh

theorem State.Cooling.init (n : Nat) : (State.init n).Cooling where
  watched m k held := by
    simp [State.holds, State.shares, total, State.init, Thread.init, Share.thread, holdShare,
      Share.entry] at held
  claimed m := Nat.le_refl _
  recent t member fr inside := by
    simp [State.init, Thread.init] at inside

theorem State.Cooling.after (inv : s.Cooling) (ok : s.TxOk) (member : t < s.nThr)
    (top : (s.thr t).stack = δ.old ++ rest) (move : Move cfg s (s.thr t).tls rest δ)
    (prompt : ∀ tmp n period, δ.old = [.get tmp (.release n period)]
      → s.sh.inUse n = NODE_COOLDOWN → period = s.sh.epoch n)
    : (s.after t δ rest).Cooling where
  watched := by
    obtain ⟨_, step⟩ := ok.pool.poolStep member top move
    refine step.watched ok.pool.pool inv.watched fun m k uses writes => ?_
    exact ok.pool.young member top move prompt uses writes
  claimed m := (δ.act.claimed inv.claimed m).trans (by
    rw [State.after_sh, Shared.after]
    exact Nat.le_succ _)
  recent t' member' fr inside h helping gen := by
    rw [State.after_nThr] at member'
    have there {t' fr'} (member : t' < s.nThr) (there : fr' ∈ (s.thr t').stack)
        (helping : fr'.helping = some h)
        : h.Recent (s.after t δ rest).sh :=
      (inv.recent t' member fr' there h helping gen).keep ok.pool move
        (State.mem_shares_of_frame (S := holdShare) member there (Frame.writes_of_helping helping))
    rw [State.after_thr, Function.update_apply] at inside
    split at inside
    · rcases List.mem_append.mp inside with fresh | below
      · rcases move.helping fresh helping with ⟨fr', old, same⟩ | now
        · exact there member (top ▸ List.mem_append_left _ old) same
        · have used := ok.used (now.control ▸ gen)
          have recent : h.Recent s.sh := .inr ⟨used, now.seen ▸ inv.claimed h.who⟩
          obtain ⟨fr', old, writes⟩ := mem_listed.mp now.writes
          refine recent.keep ok.pool move
            (State.mem_shares_of_frame (S := holdShare) member ?_ writes)
          exact top ▸ List.mem_append_left _ old
      · exact there member (top ▸ List.mem_append_right _ below) helping
    · exact there member' inside helping

theorem Prompt.move (prompt : Prompt s l) (top : (s.thr l.thread).stack = δ.old ++ rest)
    : ∀ tmp n period, δ.old = [.get tmp (.release n period)]
      → s.sh.inUse n = NODE_COOLDOWN → period = s.sh.epoch n := by
  intro tmp n period old cooldown
  exact prompt tmp n period rest (by rw [top, old]; rfl) cooldown

theorem cooling_of_reaches
    (reached : Reaches (step cfg) (fun s l => Prompt s l ∧ NoWrap cfg s l) (State.init n) s)
    : s.Cooling := by
  refine reached.invariant (.init n) fun s l s' before inv allowed taken => ?_
  have ok := txOk_of_reaches (fun _ _ => And.right) before
  obtain ⟨δ, rest, member, top, move, rfl⟩ := step_moves taken
  exact inv.after ok member top move (allowed.1.move top)

/-- In a run in which `check_cooldown` ends only the cooldown period it has checked, no writer
keeps a reservation from before a cooldown when the cooldown ends. If no generation counter wraps
either, a generation that is about to be published has not been read by a writer in `help` before
the owner of the node has claimed it.
-/
theorem cooldown_protects
    (reached : Reaches (step cfg) Prompt (State.init n) s)
    : (∀ l s', Prompt s l → step cfg s l = some s'
        → ∀ m, s.sh.inUse m = NODE_COOLDOWN → s'.sh.inUse m = NODE_UNUSED
          → ∀ k, .writes m k ∈ s.holds → s.sh.epoch m ≤ k)
      ∧ (Reaches (step cfg) (fun s l => Prompt s l ∧ NoWrap cfg s l) (State.init n) s
        → ∀ t < s.nThr, ∀ c began loc m gen rest,
          (s.thr t).stack = .load c began loc (.publish m gen) :: rest
          → ∀ t' < s.nThr, ∀ fr ∈ (s.thr t').stack, ∀ h, fr.helping = some h → h.who = m
            → h.control = gen + GEN_TAG → s.sh.claimedAt m ≤ h.seen) := by
  have ok := poolOk_of_reaches reached
  refine ⟨fun l s' prompt taken m cooldown unused k writes => ?_,
    fun careful t member c began loc m gen rest top t' member' fr inside h helping who
      control => ?_⟩
  · obtain ⟨δ, rest, member, top, move, rfl⟩ := step_moves taken
    rcases δ.act.inUse_cases s.sh m with same | cools | ⟨v, use⟩ | ⟨_, new⟩
    · rw [State.after_sh, Shared.after, same, cooldown] at unused
      cases unused
    · simp [Shared.after, cools, Act.exec, NODE_UNUSED, NODE_COOLDOWN] at unused
    · rcases move.uses use with ⟨rfl, _⟩ | ⟨_, free⟩
      · exact ok.young member top move (prompt.move top) use writes
      · rw [cooldown] at free
        cases free
    · have beyond := ok.pool.beyond m (Nat.le_of_eq new.symm)
      rw [cooldown] at beyond
      cases beyond
  · have inv := cooling_of_reaches careful
    have calm := txOk_of_reaches (fun _ _ => And.right) careful
    have knows := (ok.disciplined t).knows _ _ top
    have owned := Loc.owned (knows m rfl)
    have used : s.sh.inUse m = NODE_USED := by
      refine ok.pool.used (State.Owns.mem (t := t) ?_ member)
      rw [State.Owns, Share.thread, top]
      simp only [holdShare, Frame.holds, listed_cons, Multiset.mem_add] at owned ⊢
      tauto
    have tag : tagOf h.control = GEN_TAG := by
      have session : (Session.announced c gen).Ok s.sh m :=
        calm.session member (by rw [top]; exact .head _) (by simp [Frame.tokens, LoadPc.tokens])
      obtain ⟨_, _, _, aligned, _⟩ := session
      rw [control, tagOf, GEN_TAG]
      omega
    subst who
    rcases inv.recent t' member' fr inside h helping tag with before | ⟨_, claimed⟩
    · have writes := State.mem_shares_of_frame (S := holdShare) member' inside
        (Frame.writes_of_helping helping)
      rw [inv.watched h.who h.period writes before] at used
      cases used
    · exact claimed

end runs

/-- Whether a step ends no later cooldown than the one that was checked, computed. -/
def endsChecked (s : State) (l : Label) : Bool :=
  match (s.thr l.thread).stack with
  | .get _ (.release n period) :: _ => s.sh.inUse n != NODE_COOLDOWN || period == s.sh.epoch n
  | _ => true

theorem prompt_of_endsChecked {s l} (checked : endsChecked s l = true) : Prompt s l := by
  intro tmp n period rest top cooldown
  simpa [endsChecked, top, cooldown] using checked

/-- One thread makes a node and exits, and another one has checked the cooldown. -/
def checkedSchedule : List Label :=
  [.call 0 (.null 0), .call 0 (.new 0 100 false), .call 0 (.load 0)]
    ++ List.replicate 13 (.run 0 false)
    ++ [.call 0 .exit]
    ++ List.replicate 4 (.run 0 false)
    ++ [.call 1 (.load 0)]
    ++ List.replicate 4 (.run 1 false)

theorem cooldown_protects_checked
    : ∃ s s' : State, s.sh.inUse 0 = NODE_COOLDOWN ∧ s'.sh.inUse 0 = NODE_UNUSED
        ∧ s.sh.epoch 0 = 1 ∧ ∀ k, .writes 0 k ∈ s.holds → 1 ≤ k := by
  let view (s s' : State) :=
    (endsChecked s (.run 1 false), s.sh.inUse 0, s'.sh.inUse 0, s.sh.epoch 0)
  have ran
      : ((runChecked (step ⟨64, true⟩) endsChecked (State.init 2) checkedSchedule).bind
            fun s => (step ⟨64, true⟩ s (.run 1 false)).map fun s' => view s s')
          = some (true, NODE_COOLDOWN, NODE_UNUSED, 1) := by
    decide +kernel
  obtain ⟨s, ran, after⟩ := Option.bind_eq_some_iff.mp ran
  obtain ⟨s', taken, eq⟩ := Option.map_eq_some_iff.mp after
  simp only [view, Prod.mk.injEq] at eq
  obtain ⟨checked, cooldown, unused, epoch⟩ := eq
  have reached := reaches_of_runChecked (fun _ _ => prompt_of_endsChecked) ran
  have young := (cooldown_protects reached).1 _ s' (prompt_of_endsChecked checked) taken 0
    cooldown unused
  exact ⟨s, s', cooldown, unused, epoch, fun k writes => epoch ▸ young k writes⟩

/-- The thread that has checked the cooldown pauses. Another one takes the node, a writer comes,
and the node cools down again.
-/
def pausedSchedule : List Label :=
  checkedSchedule
    ++ [.call 3 (.load 0)]
    ++ List.replicate 15 (.run 3 false)
    ++ [.call 2 (.null 0), .call 2 (.store 0 3)]
    ++ List.replicate 23 (.run 2 false)
    ++ [.call 3 .exit]
    ++ List.replicate 3 (.run 3 false)

/-- A thread that pauses in `check_cooldown` ends the second cooldown of a node, which it has not
checked, although a writer is at the node that came before it.
-/
theorem paused_check_unprotected
    : ∃ s s' : State, Reaches (step ⟨64, true⟩) (fun _ _ => True) (State.init 4) s
        ∧ step ⟨64, true⟩ s (.run 1 false) = some s'
        ∧ s.sh.inUse 0 = NODE_COOLDOWN ∧ s'.sh.inUse 0 = NODE_UNUSED
        ∧ s.sh.epoch 0 = 2 ∧ .writes 0 1 ∈ s.holds := by
  let view (s s' : State) :=
    (s.sh.inUse 0, s'.sh.inUse 0, s.sh.epoch 0, s.nThr, (s.thr 2).stack.head?)
  have ran
      : ((runChecked (step ⟨64, true⟩) (fun _ _ => true) (State.init 4) pausedSchedule).bind
            fun s => (step ⟨64, true⟩ s (.run 1 false)).map fun s' => view s s')
          = some (NODE_COOLDOWN, NODE_UNUSED, 2, 4,
              some (.pay 0 ⟨0, 0, 0⟩ 45 .tls (.help 0 1))) := by
    decide +kernel
  obtain ⟨s, ran, after⟩ := Option.bind_eq_some_iff.mp ran
  obtain ⟨s', taken, eq⟩ := Option.map_eq_some_iff.mp after
  simp only [view, Prod.mk.injEq] at eq
  obtain ⟨cooldown, unused, epoch, threads, top⟩ := eq
  have reached : Reaches (step ⟨64, true⟩) (fun _ _ => True) (State.init 4) s :=
    reaches_of_runChecked (fun _ _ _ => trivial) ran
  refine ⟨s, s', reached, taken, cooldown, unused, epoch, ?_⟩
  have member : 2 < s.nThr := by omega
  refine State.mem_shares_of_frame (S := holdShare) member (List.mem_of_mem_head? top) ?_
  simp [holdShare, Frame.holds, PayPc.holds, walking]

end ArcSwap
