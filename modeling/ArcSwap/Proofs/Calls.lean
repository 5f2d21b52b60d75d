import ArcSwap.Library.GuardedRuns
import ArcSwap.Proofs.Steps

/-! A frame of a thread, followed through a run. Other threads do not touch it, and its own
thread moves what is above it, until it is at the top or gets the answer it waits for.
-/

namespace ArcSwap

open GuardedRuns

/-- User code has nothing on the stack but its own frame. -/
theorem CallStep.old {s tls rest δ} (step : CallStep s tls rest δ)
    : δ.old = [] ∨ ∃ fr, fr.isUser = true ∧ δ.old = [fr] := by
  cases step with
  | closureRet | closurePanic | destructorRet => exact .inr ⟨_, rfl, rfl⟩
  | _ => exact .inl rfl

/-- A frame of the crate that has not returned. -/
def Frame.isBusy : Frame → Bool
  | .closure _ | .destructor _ | .ret _ _ => false
  | _ => true

/-- One move of a thread, seen from a frame with the frames `above` on it. -/
inductive Follows (cfg : Config) (s : State) (tls : Tls) (f : Frame) (base above rest : List Frame)
    (δ : Change)
    : Prop
  /-- The frames above it move. -/
  | waits {mid} (split : above = δ.old ++ mid) (below : rest = mid ++ f :: base)
    (covered : above ≠ []) (waiting : ∀ spec v, above ≠ [.ret spec v])
  /-- The frame moves. -/
  | moves (top : above = []) (old : δ.old = [f]) (below : rest = base)
    (step : FrameStep cfg s.sh tls f δ.act δ.tls δ.new)
  /-- The frame gets an answer. -/
  | answered {spec v} (top : above = [.ret spec v]) (old : δ.old = [.ret spec v, f])
    (below : rest = base) (nop : δ.act = .nop) (same : δ.tls = tls)
    (step : ResumeStep s.sh f v δ.new)

theorem Move.follows {cfg s tls rest δ f base above} (move : Move cfg s tls rest δ)
    (stack : δ.old ++ rest = above ++ f :: base) (busy : f.isBusy = true)
    : Follows cfg s tls f base above rest δ := by
  have notUser (user : f.isUser = true) : False := by
    cases f with
    | closure | destructor => cases busy
    | _ => cases user
  have covered {mid} (split : above = δ.old ++ mid) (some : above ≠ [])
      (waiting : ∀ spec v, above ≠ [.ret spec v])
      : Follows cfg s tls f base above rest δ := by
    refine .waits split ?_ some waiting
    rw [split, List.append_assoc] at stack
    exact List.append_cancel_left stack
  cases move with
  | frame step =>
      cases above with
      | nil =>
          cases stack
          exact .moves rfl rfl rfl step
      | cons top mid =>
          cases stack
          refine covered rfl (List.cons_ne_nil _ _) fun spec v eq => ?_
          cases eq
          cases step
  | resume _ step =>
      match above, stack with
      | [], stack =>
          cases stack
          cases busy
      | [top], stack =>
          cases stack
          exact .answered rfl rfl rfl rfl rfl step
      | top :: next :: mid, stack =>
          cases stack
          exact covered rfl (List.cons_ne_nil _ _) fun _ _ eq => nomatch eq
  | deliver below =>
      match above, stack with
      | [], stack =>
          cases stack
          cases busy
      | [top], stack =>
          cases stack
          exact (notUser below).elim
      | top :: next :: mid, stack =>
          cases stack
          exact covered rfl (List.cons_ne_nil _ _) fun _ _ eq => nomatch eq
  | call below step =>
      rcases step.old with old | ⟨user, isUser, old⟩
      · have below := below old
        rw [old, List.nil_append] at stack
        rw [stack] at below
        cases above with
        | nil => exact (notUser below).elim
        | cons top mid =>
            refine covered (by rw [old, List.nil_append]) (List.cons_ne_nil _ _) fun spec v eq => ?_
            cases eq
            cases below
      · rw [old] at stack
        cases above with
        | nil =>
            cases stack
            exact (notUser isUser).elim
        | cons top mid =>
            cases stack
            refine covered (by rw [old]; rfl) (List.cons_ne_nil _ _) fun spec v eq => ?_
            cases eq
            cases isUser

/-- A step does not touch the other threads. -/
theorem step_others {cfg s l s' t} (taken : step cfg s l = some s') (other : t ≠ l.thread)
    : s'.thr t = s.thr t := by
  obtain ⟨δ, rest, _, _, _, rfl⟩ := step_moves taken
  rw [State.after_thr, Function.update_of_ne other]

/-- A run has the threads that it starts with. -/
theorem threads_of_reaches {cfg ok s s'} (later : Reaches (step cfg) ok s s')
    : s'.nThr = s.nThr := by
  induction later with
  | start => rfl
  | step _ _ taken ih =>
      obtain ⟨δ, rest, _, _, _, rfl⟩ := step_moves taken
      rw [State.after_nThr, ih]

/-- One step of the program, seen from a frame of thread `t`. -/
inductive Progress (cfg : Config) (t : ThreadId) (f : Frame) (base above : List Frame)
    (s : State) (l : Label) (s' : State)
    : Prop
  /-- The frame waits, and is covered if its thread has moved. -/
  | waits {above'} (top : (s'.thr t).stack = above' ++ f :: base)
    (covered : l.thread = t → above ≠ [] ∧ ∀ spec v, above ≠ [.ret spec v])
  /-- The frame moves. -/
  | moves {act tls frames} (thread : l.thread = t) (empty : above = [])
    (step : FrameStep cfg s.sh (s.thr t).tls f act tls frames) (after : s'.sh = s.sh.after act)
    (top : (s'.thr t).stack = frames ++ base)
  /-- The frame gets an answer. -/
  | answered {spec v frames} (thread : l.thread = t) (ret : above = [.ret spec v])
    (step : ResumeStep s.sh f v frames) (after : s'.sh = s.sh.after .nop)
    (top : (s'.thr t).stack = frames ++ base)

/-- A frame at the top has nothing on it. -/
theorem above_nil {stack base : List Frame} {f : Frame} (top : stack = f :: base)
    : stack = [] ++ f :: base := top

theorem step_follows {cfg s l s' t f base above} (taken : step cfg s l = some s')
    (top : (s.thr t).stack = above ++ f :: base) (busy : f.isBusy = true)
    : Progress cfg t f base above s l s' := by
  obtain ⟨δ, rest, _, stack, move, rfl⟩ := step_moves taken
  by_cases thread : l.thread = t
  · subst thread
    have after : ((s.after l.thread δ rest).thr l.thread).stack = δ.new ++ rest := by simp
    cases move.follows (stack.symm.trans top) busy with
    | @waits mid split below covered waiting =>
        have top' : δ.new ++ rest = (δ.new ++ mid) ++ f :: base := by
          rw [below, List.append_assoc]
        exact .waits (after.trans top') fun _ => ⟨covered, waiting⟩
    | moves empty _ below step => exact .moves rfl empty step rfl (by rw [after, below])
    | answered ret _ below nop _ step =>
        exact .answered rfl ret step (by rw [← nop]; rfl) (by rw [after, below])
  · have same := step_others taken (Ne.symm thread)
    exact .waits (same ▸ top) fun eq => absurd eq thread

/-- A part of a run, up to the end of a call in thread `t`: this thread takes no step any more
once its stack has ended the call. What the steps are worth to a log is collected.
-/
inductive Within {α : Type} (cfg : Config) (ok : State → Label → Prop) (t : ThreadId)
    (ended : List Frame → Prop) (note : State → Label → State → List α) (s₀ : State)
    : List α → State → Prop
  | start : Within cfg ok t ended note s₀ [] s₀
  | step {log s l s'} (before : Within cfg ok t ended note s₀ log s)
    (inside : l.thread = t → ¬ ended (s.thr t).stack) (allowed : ok s l)
    (taken : step cfg s l = some s')
    : Within cfg ok t ended note s₀ (log ++ note s l s') s'

theorem Within.reaches {α : Type} {cfg ok t ended}
    {note : State → Label → State → List α} {s₀ log s}
    (run : Within cfg ok t ended note s₀ log s)
    : Reaches (ArcSwap.step cfg) ok s₀ s := by
  induction run with
  | start => exact .start
  | step _ _ allowed taken ih => exact .step ih allowed taken

/-- A weaker condition allows more runs. -/
theorem Within.mono {α : Type} {cfg ok ok' t ended} {note : State → Label → State → List α}
    {s₀ log s} (weaker : ∀ s l, ok s l → ok' s l)
    (run : Within cfg ok t ended note s₀ log s)
    : Within cfg ok' t ended note s₀ log s := by
  induction run with
  | start => exact .start
  | step _ inside allowed taken ih => exact .step ih inside (weaker _ _ allowed) taken

/-- What holds at the call and is kept by the steps up to its end holds all the time. -/
theorem Within.invariant {α : Type} {cfg ok t ended}
    {note : State → Label → State → List α} {s₀ log s}
    {I : List α → State → Prop} (init : I [] s₀)
    (preserved
      : ∀ log s l s', Reaches (ArcSwap.step cfg) ok s₀ s → I log s
          → (l.thread = t → ¬ ended (s.thr t).stack) → ok s l
            → ArcSwap.step cfg s l = some s'
          → I (log ++ note s l s') s')
    (run : Within cfg ok t ended note s₀ log s)
    : I log s := by
  induction run with
  | start => exact init
  | step before inside allowed taken ih =>
      exact preserved _ _ _ _ before.reaches ih inside allowed taken

/-- Take the steps of a part of a run, as far as a computable condition allows it, and collect
what they are worth.
-/
def runNoted {α : Type} (cfg : Config) (check : State → Label → Bool)
    (note : State → Label → State → List α)
    : State → List Label → Option (List α × State)
  | s, [] => some ([], s)
  | s, l :: ls =>
      if check s l then
        (step cfg s l).bind fun s' =>
          (runNoted cfg check note s' ls).map fun (log, s'') => (note s l s' ++ log, s'')
      else none

/-- A part of a run that a check has let through. -/
theorem Within.extend {α : Type} {cfg ok t ended check}
    {note : State → Label → State → List α} {ls s₀ s s' log more}
    (sound : ∀ s l, check s l = true → (l.thread = t → ¬ ended (s.thr t).stack) ∧ ok s l)
    (before : Within cfg ok t ended note s₀ log s)
    (ran : runNoted cfg check note s ls = some (more, s'))
    : Within cfg ok t ended note s₀ (log ++ more) s' := by
  induction ls generalizing s log more with
  | nil =>
      cases ran
      rwa [List.append_nil]
  | cons l ls ih =>
      simp only [runNoted] at ran
      split at ran
      · obtain ⟨inside, allowed⟩ := sound s l ‹_›
        obtain ⟨s₁, taken, later⟩ := Option.bind_eq_some_iff.mp ran
        obtain ⟨⟨rest, s₂⟩, ran', eq⟩ := Option.map_eq_some_iff.mp later
        cases eq
        rw [← List.append_assoc]
        exact ih (before.step inside allowed taken) ran'
      · cases ran

/-- The part of the run that is watched has not ended, or another thread makes the step. -/
def unended (t : ThreadId) (ended : List Frame → Prop) [DecidablePred ended] (s : State)
    (l : Label) : Bool :=
  l.thread != t || !decide (ended (s.thr t).stack)

theorem unended_sound {t ended} [DecidablePred ended] {ok : State → Label → Prop}
    {check : State → Label → Bool} (sound : ∀ s l, check s l = true → ok s l)
    (s : State) (l : Label) (checked : (check s l && unended t ended s l) = true)
    : (l.thread = t → ¬ ended (s.thr t).stack) ∧ ok s l := by
  simp only [unended, Bool.and_eq_true, Bool.or_eq_true, bne_iff_ne, Bool.not_eq_true',
    decide_eq_false_iff_not] at checked
  exact ⟨fun thread => checked.2.resolve_left (not_not_intro thread), sound s l checked.1⟩

/-- The thread has returned to the frames `base`. -/
def returned (base stack : List Frame) : Prop :=
  ∃ spec v, stack = .ret spec v :: base

def Frame.isRet : Frame → Bool
  | .ret _ _ => true
  | _ => false

instance (base : List Frame) : DecidablePred (returned base)
  | [] => .isFalse nofun
  | fr :: rest =>
      decidable_of_iff (fr.isRet = true ∧ rest = base)
        (by cases fr <;> simp [returned, Frame.isRet])

end ArcSwap
