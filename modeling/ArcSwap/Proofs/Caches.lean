import ArcSwap.Proofs.Calls
import ArcSwap.Proofs.Operations

/-! `Cache`. Its check compares two addresses and takes no protection. The object that it keeps is
still the one in the storage, since the count of the cache keeps the address from being given to
another one; otherwise the cache loads.
-/

namespace ArcSwap

open GuardedRuns Registers

/-- Where a call of `revalidate` is, and what it has got so far. -/
inductive Revalidates (same : Ptr → Ptr → Prop) (s : State) (c : CellId) (p : Ptr) (since : Nat)
    (base : List Frame)
    : List Frame → Prop
  | peeks (call : since ≤ s.sh.time)
      : Revalidates same s c p since base (.cache c p .peek :: base)
  | loads {above began} (call : since ≤ began)
    : Revalidates same s c p since base (above ++ .cache c p (.loadWait began) :: base)
  | drops {above r} (held : s.sh.Held same c since s.sh.time r)
    : Revalidates same s c p since base (above ++ .cache c p (.decWait r) :: base)
  | returns {r} (held : s.sh.Held same c since s.sh.time r)
    : Revalidates same s c p since base (.ret .plain (.ptr r) :: base)

section runs

variable {same : Ptr → Ptr → Prop} {cfg : Config} {s s' : State} {t : ThreadId} {c : CellId}
  {n since upTo : Nat} {p r : Ptr} {base : List Frame}

/-- What a storage has held stays on record throughout a run. -/
theorem heldAt_of_reaches {ok} (later : Reaches (step cfg) ok s s') (cell : c < s.sh.nCells) {time}
    (past : time ≤ s.sh.time)
    : s'.sh.heldAt c time = s.sh.heldAt c time := by
  have both
      : s'.sh.heldAt c time = s.sh.heldAt c time ∧ c < s'.sh.nCells ∧ time ≤ s'.sh.time := by
    refine later.invariant
      (I := fun s' => s'.sh.heldAt c time = s.sh.heldAt c time ∧ c < s'.sh.nCells
        ∧ time ≤ s'.sh.time)
      ⟨rfl, cell, past⟩ ?_
    intro s₁ l s₂ _ inv _ taken
    obtain ⟨same, cell, past⟩ := inv
    obtain ⟨δ, rest, _, _, _, rfl⟩ := step_moves taken
    rw [State.after_sh]
    refine ⟨?_, Nat.lt_of_lt_of_le cell (δ.act.nCells_le s₁.sh), Nat.le_succ_of_le past⟩
    exact (s₁.sh.heldAt_after δ.act cell past).trans same
  exact both.1

theorem Shared.Held.later {ok} (held : s.sh.Held same c since upTo p)
    (later : Reaches (step cfg) ok s s')
    : ∃ time, since ≤ time ∧ time ≤ upTo ∧ same p (s'.sh.heldAt c time) := by
  obtain ⟨cell, past, time, began, before, there⟩ := held
  refine ⟨time, began, before, ?_⟩
  rw [heldAt_of_reaches later cell (Nat.le_trans before past)]
  exact there

/-- The cached pointer and the content of the storage, if they have one address. -/
theorem cached_alike (reached : Reaches (step cfg) (Careful cfg) (State.init n) s)
    (member : t < s.nThr) (inside : .cache c p .peek ∈ (s.thr t).stack)
    (same : p.addr = (s.sh.ptr c).addr)
    : p.Alike (s.sh.ptr c) := by
  have ok := txOk_of_reaches (fun _ _ => And.left) reached
  have ledger := ledger_of_reaches reached
  have live := ((ok.calm t member).frame inside (by simp)).live c rfl
  have owned : .own p ∈ s.tokens :=
    State.mem_shares_of_frame (S := tokenShare) member inside (Multiset.mem_singleton_self _)
  have valid : p.Valid s.sh := ledger.fine _ owned
  exact valid.alike (ledger.cells c live) same

theorem Revalidates.step {l} (calls : Revalidates same s c p since base (s.thr t).stack)
    (cmp : Comparison same)
    (reached
      : Reaches (ArcSwap.step cfg) (fun s l => Careful cfg s l ∧ Adopts same s l)
        (State.init n) s)
    (member : t < s.nThr)
    (inside : l.thread = t → ¬ returned base (s.thr t).stack)
    (taken : ArcSwap.step cfg s l = some s')
    : Revalidates same s' c p since base (s'.thr t).stack := by
  have careful := reached.mono fun _ _ => And.left
  have ok := txOk_of_reaches (fun _ _ => And.left) careful
  have sourced := sourced_of_reaches cmp reached
  have waits {δ rest t'} (after : s' = s.after t' δ rest) {r}
      (held : s.sh.Held same c since s.sh.time r)
      : s'.sh.Held same c since s'.sh.time r := by
    subst after
    exact held.next δ.act
  obtain ⟨δ, rest, _, _, _, after⟩ := step_moves taken
  generalize stack : (s.thr t).stack = frames at calls
  cases calls with
  | peeks call =>
      have there : .cache c p .peek ∈ (s.thr t).stack := stack ▸ List.mem_cons_self
      have live := ((ok.calm t member).frame there (by simp)).live c rfl
      have now := sourced.recorded.now cmp (ok.tx.cells.bound c (by simp [live])) call
      cases step_follows taken (above_nil stack) rfl with
      | @waits above top covered =>
          have other : l.thread ≠ t := fun eq => (covered eq).1 rfl
          have still : (s'.thr t).stack = .cache c p .peek :: base :=
            (congrArg Thread.stack (step_others taken (Ne.symm other))).trans stack
          rw [still]
          refine .peeks (Nat.le_trans call ?_)
          rw [after]
          exact Nat.le_succ _
      | answered _ ret => cases ret
      | moves _ _ step _ top =>
          rw [top]
          cases step with
          | cacheHit equal =>
              refine .returns (waits after (now.alike cmp ?_))
              exact cached_alike careful member there equal
          | cacheMiss other =>
              let above : List Frame := [.load c s.sh.time .tls .enter, .loadFull c s.sh.time]
              have loads : Revalidates same s' c p since base
                (above ++ .cache c p (.loadWait _) :: base) :=
                .loads call
              exact loads
  | @loads above began call =>
      cases step_follows taken stack rfl with
      | waits top => exact top ▸ .loads call
      | moves _ _ step => cases step
      | @answered spec v frames thread ret step _ top =>
          rw [ret] at stack
          have there : .ret spec v ∈ (s.thr t).stack := by simp [stack]
          have linked := (ok.pool.disciplined t).linked
          rw [stack] at linked
          rw [top]
          cases step with
          | cacheLoad =>
              have result : spec.Sourced same s.sh (.ptr _) := sourced.frames t member _ there
              rcases linked.1 with eq | eq <;> cases eq
              have drops : Revalidates same s' c p since base
                ([.dec p] ++ .cache c p (.decWait _) :: base) :=
                .drops (waits after
                  (Shared.Held.extend result call (Nat.le_refl _) (Nat.le_refl _)))
              exact drops
          | unwind =>
              have bears := (ok.calm t member).bears stack rfl
              rcases bears with eq | eq <;> rcases eq with eq | eq <;> cases eq
  | @drops above r held =>
      cases step_follows taken stack rfl with
      | waits top => exact top ▸ .drops (waits after held)
      | moves _ _ step => cases step
      | answered _ _ step _ top =>
          rw [top]
          cases step with
          | cacheDone => exact .returns (waits after held)
          | unwind step => cases step
  | @returns r held =>
      have other : l.thread ≠ t := fun eq => inside eq ⟨_, _, stack⟩
      have still : (s'.thr t).stack = .ret .plain (.ptr r) :: base :=
        (congrArg Thread.stack (step_others taken (Ne.symm other))).trans stack
      exact still ▸ .returns (waits after held)

/-- What a call of `revalidate` has got when it returns. -/
theorem Revalidates.within {log} (cmp : Comparison same)
    (reached
      : Reaches (ArcSwap.step cfg) (fun s l => Careful cfg s l ∧ Adopts same s l)
        (State.init n) s)
    (member : t < s.nThr) (top : (s.thr t).stack = .cache c p .peek :: base)
    (run
      : Within cfg (fun s l => Careful cfg s l ∧ Adopts same s l) t (returned base)
          (fun _ _ _ => ([] : List Unit)) s log s')
    (ended : (s'.thr t).stack = .ret .plain (.ptr r) :: base)
    : s'.sh.Alive r ∧ s'.sh.Held same c s.sh.time s'.sh.time r := by
  constructor
  · have there : .ret .plain (.ptr r) ∈ (s'.thr t).stack := ended ▸ List.mem_cons_self
    have owned : .own r ∈ (Frame.ret .plain (.ptr r)).tokens := Multiset.mem_singleton_self _
    have member' : t < s'.nThr := by rwa [threads_of_reaches run.reaches]
    exact alive_of_reaches ((reached.trans run.reaches).mono fun _ _ => And.left)
      (.frame member' there owned rfl)
  · have calls : Revalidates same s' c p s.sh.time base (s'.thr t).stack := by
      refine run.invariant
        (I := fun _ s' => Revalidates same s' c p s.sh.time base (s'.thr t).stack) ?_ ?_
      · exact top ▸ .peeks (Nat.le_refl _)
      · intro _ s₁ l s₂ between calls inside _ taken
        have member' : t < s₁.nThr := by rwa [threads_of_reaches between]
        exact calls.step cmp (reached.trans between) member' inside taken
    have long (above : List Frame) (fr : Frame)
        (eq : above ++ fr :: base = .ret .plain (.ptr r) :: base)
        : fr = .ret .plain (.ptr r) := by
      have both : above ++ fr :: base = [] ++ .ret .plain (.ptr r) :: base := eq
      exact (List.cons.inj (List.append_inj' both rfl).2).1
    generalize stack : (s'.thr t).stack = frames at calls
    rw [ended] at stack
    cases calls with
    | peeks => cases stack
    | @loads above began => cases long above _ stack.symm
    | @drops above r' => cases long above _ stack.symm
    | returns held =>
        cases stack
        exact held

/-- If the check of `Cache::revalidate` succeeds, the cached object is the very object that the
storage holds at this moment. Whatever `revalidate` returns is still there, and the storage has
held its address at some instant during the call, also if other threads write meanwhile.
-/
theorem cache_agrees (reached : Reaches (step cfg) (Careful cfg) (State.init n) s)
    (member : t < s.nThr) (top : (s.thr t).stack = .cache c p .peek :: base)
    : (p.addr = (s.sh.ptr c).addr → p.Alike (s.sh.ptr c))
      ∧ ∀ log s' r,
        Within cfg (Careful cfg) t (returned base) (fun _ _ _ => ([] : List Unit)) s log s'
          → (s'.thr t).stack = .ret .plain (.ptr r) :: base
          → s'.sh.Alive r
            ∧ ∀ later, Reaches (step cfg) (Careful cfg) s' later
              → ∃ time, s.sh.time ≤ time ∧ time ≤ s'.sh.time
                ∧ r.addr = (later.sh.heldAt c time).addr := by
  refine ⟨cached_alike reached member (top ▸ List.mem_cons_self), ?_⟩
  intro log s' r run ended
  obtain ⟨alive, held⟩ := Revalidates.within comparison_sameAddr
    (reached.mono fun _ _ => adopts_sameAddr) member top (run.mono fun _ _ => adopts_sameAddr) ended
  exact ⟨alive, fun s'' later => held.later later⟩

end runs

/-- A pointer is cached and put into a storage. -/
def cachedSchedule : List Label :=
  [.call 0 (.alloc 16 0), .call 0 (.clone 0), .call 0 (.new 0 100 true), .call 0 (.revalidate 0 1)]

/-- The cache finds its pointer in the storage. -/
theorem cache_agrees_hit
    : ∃ s s' : State, Ptr.Alike ⟨16, 0, 1⟩ (s.sh.ptr 0) ∧ s'.sh.Alive ⟨16, 0, 1⟩
        ∧ ∃ time, s.sh.time ≤ time ∧ time ≤ s'.sh.time
          ∧ 16 = (s'.sh.heldAt 0 time).addr := by
  let top : List Frame := [.cache 0 ⟨16, 0, 1⟩ .peek]
  have ran
      : (runChecked (step ⟨64, true⟩) (careful ⟨64, true⟩)
          (State.init 1) cachedSchedule).map
            (fun s =>
              (s.nThr, (s.thr 0).stack, (s.sh.ptr 0).addr, careful ⟨64, true⟩ s (.run 0 false),
                (step ⟨64, true⟩ s (.run 0 false)).map fun s' => (s'.thr 0).stack))
          = some (1, top, 16, true, some [.ret .plain (.ptr ⟨16, 0, 1⟩)]) := by
    decide +kernel
  obtain ⟨s, ran, eq⟩ := Option.map_eq_some_iff.mp ran
  simp only [Prod.mk.injEq] at eq
  obtain ⟨threads, stack, content, checked, after⟩ := eq
  obtain ⟨s', taken, stack'⟩ := Option.map_eq_some_iff.mp after
  have reached := reaches_of_runChecked (fun _ _ => careful_sound) ran
  have inside : ¬ returned [] (s.thr 0).stack := by
    rw [stack]
    intro ⟨spec, v, eq⟩
    simp [top] at eq
  have member : 0 < s.nThr := by omega
  obtain ⟨hit, returns⟩ := cache_agrees reached member stack
  obtain ⟨alive, held⟩ := returns _ s' ⟨16, 0, 1⟩
    (.step .start (fun _ => inside) (careful_sound checked) taken) stack'
  exact ⟨s, s', hit content.symm, alive, held s' .start⟩

section runs

variable {cfg : Config} {s s' : State} {t : ThreadId} {c : CellId} {n : Nat} {p r : Ptr}
  {base : List Frame}

/-- The condition under which loads return what their storage has held. -/
def Sound (cfg : Config) (s : State) (l : Label) : Prop :=
  Careful cfg s l ∧ Unreused s l

/-- In a run in which no load adopts an address that has been given to another object, the storage
has held the very object that `revalidate` returns at some instant during the call. So calls that
follow each other never step back in the order of the writes.
-/
theorem cache_returns_held (reached : Reaches (step cfg) (Sound cfg) (State.init n) s)
    (member : t < s.nThr) (top : (s.thr t).stack = .cache c p .peek :: base) {log}
    (run : Within cfg (Sound cfg) t (returned base) (fun _ _ _ => ([] : List Unit)) s log s')
    (ended : (s'.thr t).stack = .ret .plain (.ptr r) :: base)
    : ∀ later, Reaches (step cfg) (Sound cfg) s' later
        → later.sh.HeldObject c s.sh.time s'.sh.time r := by
  intro s'' later
  have adopts (s l) (sound : Sound cfg s l) : Careful cfg s l ∧ Adopts Ptr.Alike s l :=
    ⟨sound.1, sound.2.adopts⟩
  obtain ⟨_, held⟩ := Revalidates.within comparison_alike (reached.mono adopts) member top
    (run.mono adopts) ended
  exact held.later later

end runs

/-- The cache has a pointer that is not in the storage. -/
def outdatedSchedule : List Label :=
  [.call 0 (.alloc 16 0), .call 0 (.new 0 100 true), .call 0 (.alloc 20 0), .call 0 (.clone 1),
    .call 0 (.revalidate 0 1)]

/-- The cache loads the object of the storage. -/
theorem cache_returns_held_loaded
    : ∃ s s' : State, (s.thr 0).stack = [.cache 0 ⟨20, 0, 2⟩ .peek]
        ∧ (s'.thr 0).stack = [.ret .plain (.ptr ⟨16, 0, 1⟩)]
        ∧ s'.sh.HeldObject 0 s.sh.time s'.sh.time ⟨16, 0, 1⟩ := by
  let cfg : Config := ⟨64, true⟩
  let sound (s : State) (l : Label) : Bool := careful cfg s l && adoptsItsOwn s l
  let check (s : State) (l : Label) : Bool := sound s l && unended 0 (returned []) s l
  have allowed (s : State) (l : Label) (checked : sound s l = true) : Sound cfg s l := by
    obtain ⟨careful, adopts⟩ := Bool.and_eq_true_iff.mp checked
    exact ⟨careful_sound careful, unreused_of_adoptsItsOwn adopts⟩
  have ran
      : ((runChecked (step cfg) sound (State.init 1) outdatedSchedule).bind fun s =>
          (runNoted cfg check (fun _ _ _ => ([] : List Unit)) s
            (List.replicate 16 (.run 0 false))).map
            fun r => (s.nThr, (s.thr 0).stack, (r.2.thr 0).stack))
        = some (1, [.cache 0 ⟨20, 0, 2⟩ .peek], [.ret .plain (.ptr ⟨16, 0, 1⟩)]) := by
    decide +kernel
  obtain ⟨s, ran₀, ran⟩ := Option.bind_eq_some_iff.mp ran
  obtain ⟨⟨log, s'⟩, ran', eq⟩ := Option.map_eq_some_iff.mp ran
  simp only [Prod.mk.injEq] at eq
  obtain ⟨threads, stack, stack'⟩ := eq
  have member : 0 < s.nThr := by omega
  have held := cache_returns_held (reaches_of_runChecked allowed ran₀) member stack
    (Within.extend (unended_sound allowed) .start ran') stack' s' .start
  exact ⟨s, s', stack, stack', held⟩

end ArcSwap
