import ArcSwap.Proofs.CalmRuns
import ArcSwap.Proofs.LedgerSteps

/-! Runs in which no generation counter wraps and no generation is published again that a
writer inside `Slots::help` has read. What the steps of the debt protocol keep holds in
every state of such a run.
-/

namespace ArcSwap

open Bags GuardedRuns

/-- The step wraps no counter and publishes no generation that is still being read. -/
def Careful (cfg : Config) (s : State) (l : Label) : Prop :=
  NoWrap cfg s l ∧ NoRecur s l

/-- Whether the step publishes no generation that is still being read, computed. -/
def recursNothing (s : State) (l : Label) : Bool :=
  match (s.thr l.thread).stack with
  | .load _ _ _ (.publish n gen) :: _ =>
      (List.range s.nThr).all fun t =>
        (s.thr t).stack.all fun fr => !fr.hasRead n (gen + GEN_TAG)
  | _ => true

/-- Whether a step is careful, computed. -/
def careful (cfg : Config) (s : State) (l : Label) : Bool :=
  wrapsNothing cfg s l && recursNothing s l

theorem careful_sound {cfg s l} (checked : careful cfg s l = true) : Careful cfg s l := by
  obtain ⟨wraps, recurs⟩ := Bool.and_eq_true_iff.mp checked
  refine ⟨noWrap_of_wrapsNothing wraps, ?_⟩
  intro c began loc n gen rest top t member fr inside
  simp only [recursNothing, top, List.all_eq_true, List.mem_range, Bool.not_eq_true'] at recurs
  exact recurs t member fr inside

/-- A generation is published by a load that has announced its storage. -/
theorem Move.publishes {cfg s tls rest δ} (move : Move cfg s tls rest δ) {n gen}
    (publishes : δ.act = .publish n gen)
    : ∃ c began loc g, δ.old = [.load c began loc (.publish n g)] ∧ gen = g + GEN_TAG := by
  have inc {p} (publishes : incAct p = .publish n gen) : False := by
    unfold incAct at publishes
    split at publishes <;> cases publishes
  cases move with
  | resume | deliver => cases publishes
  | frame step =>
      cases step with
      | get step => cases step <;> cases publishes
      | cool step => cases step <;> cases publishes
      | dec step => cases step <;> cases publishes
      | into step => cases step <;> first | exact (inc publishes).elim | cases publishes
      | guardDrop step => cases step <;> cases publishes
      | pay step => cases step <;> first | exact (inc publishes).elim | cases publishes
      | load step =>
          cases step with
          | publish | publishPanic | publishWrapped | publishWrappedTmp =>
              cases publishes
              exact ⟨_, _, _, _, rfl, by simp⟩
          | ownInc => exact (inc publishes).elim
          | _ => cases publishes
      | _ => cases publishes
  | call below step =>
      cases step with
      | clone | cloneArg => exact (inc publishes).elim
      | _ => cases publishes

/-- A walk inside `help` belongs to a frame that has read the same word. -/
theorem Frame.hasRead_of_walk {fr : Frame} {c p since pos h}
    (walk : .walk c p since pos ∈ fr.tokens) (helping : pos.helping = some h)
    : fr.hasRead h.who h.control = true := by
  have token (g : Prot) : Token.walk c p since pos ≠ g.token := by
    rcases g.token_cases with eq | ⟨_, _, eq⟩ <;> rw [eq] <;> simp
  cases fr with
  | pay d q from' loc pc =>
      cases pc <;> simp [tokens, PayPc.tokens] at walk <;>
        (obtain ⟨rfl, rfl, rfl, rfl⟩ := walk) <;> cases helping <;>
        simp [hasRead, PayPc.helping]
  | ret spec v => cases v <;> cases spec <;> simp [tokens, Ret.tokens, token] at walk
  | into g _ pc => cases pc <;> simp [tokens, IntoPc.tokens, token] at walk
  | load d began loc pc => cases pc <;> simp [tokens, LoadPc.tokens, token] at walk
  | cas _ _ _ _ pc => cases pc <;> simp [tokens, CasPc.tokens, token] at walk
  | rcu _ _ pc => cases pc <;> simp [tokens, RcuPc.tokens, token] at walk
  | cache _ _ pc => cases pc <;> simp [tokens, CachePc.tokens] at walk
  | cellDrop _ pc => cases pc <;> simp [tokens, DropPc.tokens] at walk
  | cellInto _ p => cases p <;> simp [tokens] at walk
  | _ => simp [tokens, token] at walk

/-- What a token stands for is held by a thread or by a value of user code. -/
theorem State.mem_tokens {s : State} {tok} (inside : tok ∈ s.tokens)
    : (∃ t < s.nThr, ∃ fr ∈ (s.thr t).stack, tok ∈ fr.tokens)
      ∨ ∃ v < s.nVals, ∃ u, s.vals v = some u ∧ tok = u.token := by
  rcases State.mem_shares inside with ⟨t, member, tls | frame⟩ | ⟨v, bound, u, val, held⟩
  · exact absurd tls (Multiset.notMem_zero _)
  · exact .inl ⟨t, member, frame⟩
  · exact .inr ⟨v, bound, u, val, Multiset.mem_singleton.mp held⟩

theorem NoRecur.fresh {cfg s l rest δ} (noRecur : NoRecur s l)
    (top : (s.thr l.thread).stack = δ.old ++ rest)
    (move : Move cfg s (s.thr l.thread).tls rest δ)
    : δ.act.Fresh s.tokens := by
  cases eq : δ.act with
  | publish n gen =>
      obtain ⟨c, began, loc, g, old, rfl⟩ := move.publishes eq
      rw [old] at top
      intro d p since pos h walk helping who same
      rcases State.mem_tokens walk with ⟨t, member, fr, inside, held⟩ | ⟨_, _, u, _, value⟩
      · have read := Frame.hasRead_of_walk held helping
        rw [who, same, noRecur c began loc n g rest top t member fr inside] at read
        cases read
      · cases u with
        | handle q => cases value
        | guard q =>
            rcases q.token_cases with eq | ⟨_, _, eq⟩ <;>
              simp [UserVal.token, eq] at value
  | _ => trivial

theorem State.tokens_init (n : Nat) : (State.init n).tokens = 0 := by
  simp [State.tokens, State.shares, total, State.init, Thread.init, Share.thread, tokenShare,
    Share.entry]

/-- What the steps of the protocol keep holds throughout careful runs. -/
theorem protocol_invariant {cfg n s} {I : Shared → Tokens → Prop} (init : I .init 0)
    (preserved
      : ∀ {sh r old act new}, ProtoStep sh r old act new → sh.ListOk → TxInv sh old
          → act.Fresh old → I sh old → I (sh.after act) new)
    (reached : Reaches (step cfg) (Careful cfg) (State.init n) s)
    : I s.sh s.tokens := by
  refine reached.invariant (I := fun s => I s.sh s.tokens)
    ?_ fun s l s' before inv allowed taken => ?_
  · rw [State.tokens_init]
    exact init
  · have ok := txOk_of_reaches (fun _ _ => And.left) before
    obtain ⟨δ, rest, member, top, move, rfl⟩ := step_moves taken
    obtain ⟨_, r, proto⟩ := ok.after member top move fun fr old =>
      allowed.1 fr rest (by rw [top, old]; rfl)
    rw [State.after_sh]
    exact preserved proto ok.pool.pool.list ok.tx (allowed.2.fresh top move) inv

/-- Readers and helpers are in order throughout careful runs. -/
theorem help_of_reaches {cfg n s} (reached : Reaches (step cfg) (Careful cfg) (State.init n) s)
    : HelpInv s.sh s.tokens :=
  protocol_invariant .init
    (fun step list inv fresh help => step.helpInv list inv fresh help) reached

/-- The ledger of strong counts is in order throughout careful runs. -/
theorem ledger_of_reaches {cfg n s}
    (reached : Reaches (step cfg) (Careful cfg) (State.init n) s)
    : LedgerInv s.sh s.tokens := by
  have both : HelpInv s.sh s.tokens ∧ LedgerInv s.sh s.tokens := by
    refine protocol_invariant (I := fun sh M => HelpInv sh M ∧ LedgerInv sh M)
      ⟨.init, .init⟩ ?_ reached
    intro sh r old act new step list inv fresh ⟨help, ledger⟩
    exact ⟨step.helpInv list inv fresh help, (step.ledger list inv help.env ledger).tick _⟩
  exact both.2

end ArcSwap
