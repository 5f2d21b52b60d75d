import ArcSwap.Proofs.Assertions
import ArcSwap.Proofs.Calls

/-! The default strategy never blocks. Whatever other threads do, and wherever they have stopped, a
thread in the code of the crate can make its next step, and the steps of a load are bounded.
-/

namespace ArcSwap

open GuardedRuns

-----------------------------------------------------------------------------------------
-- Frames that have a step
-----------------------------------------------------------------------------------------

/-- The frame waits for a callee to return. -/
def Frame.isWaiting : Frame → Bool
  | .load _ _ _ pc =>
      match pc with
      | .nodeWait | .discardWait _ _ | .decWait _ | .coolWait _ | .unwind => true
      | _ => false
  | .pay _ _ _ _ pc =>
      match pc with
      | .nodeWait | .replaceWait _ _ | .lostWait _ | .decWait | .coolWait | .unwind _ => true
      | _ => false
  | .into _ _ .decWait | .loadFull _ _ | .swapWait _ | .storeWait _ | .rcu _ _ _ => true
  | .cas _ _ _ _ (.exchange _) | .cache _ _ .peek | .cellDrop _ .free => false
  | .cas _ _ _ _ _ | .cache _ _ _ | .cellDrop _ _ | .cellInto _ none => true
  | _ => false

/-- What a frame relies on besides the answer of its callee. A panic comes from a closure, whose
`rcu` was called by user code.
-/
def Frame.Above (rest : List Frame) : Frame → Prop
  | .rcu _ _ _ => belowUser rest
  | .ret _ .unwound =>
      belowUser rest ∨ ∃ c op cur calls others,
        rest = .rcu c op (.closureWait cur calls) :: others
  | .into g _ .pay => g.debt ≠ none
  | _ => True

def StackAbove : List Frame → Prop
  | [] => True
  | fr :: rest => fr.Above rest ∧ StackAbove rest

/-- The frame at the top does not wait. -/
def readyTop : List Frame → Prop
  | [] => True
  | fr :: _ => fr.isWaiting = false

section frames

variable {cfg : Config} {sh : Shared} {tls : Tls} {spurious : Bool} {fr caller : Frame}
  {rest frames : List Frame} {spec : Spec} {v : Ret}

theorem stepLoad_isSome {c began loc pc} (moves : Frame.isWaiting (.load c began loc pc) = false)
    : (stepLoad cfg sh tls c began loc pc).isSome := by
  cases pc with
  | enter =>
      simp only [stepLoad]
      split
      · split <;> rfl
      · rfl
  | publish n gen =>
      simp only [stepLoad]
      split
      · rfl
      · split
        · split <;> rfl
        · rfl
  | scan n p k =>
      simp only [stepLoad]
      split
      · rfl
      · split <;> rfl
  | recheck | payBack | confirm | ownPay | unused =>
      simp only [stepLoad]
      split <;> rfl
  | nodeWait | discardWait | decWait | coolWait | unwind => cases moves
  | _ => rfl

theorem stepPay_isSome {c p since loc pc} (moves : Frame.isWaiting (.pay c p since loc pc) = false)
    : (stepPay cfg sh tls c p since loc pc).isSome := by
  cases pc with
  | enter =>
      simp only [stepPay]
      split
      · split <;> rfl
      · rfl
  | recheck | offer | slots =>
      simp only [stepPay]
      split <;> rfl
  | nodeWait | replaceWait | lostWait | decWait | coolWait | unwind => cases moves
  | _ => rfl

/-- A frame that neither waits nor returns has a step, if it is code of the crate. -/
theorem stepFrame_isSome (above : fr.Above rest) (moves : fr.isWaiting = false)
    (code : fr.isUser = false) (busy : ∀ spec v, fr ≠ .ret spec v)
    : (stepFrame cfg sh tls spurious fr).isSome := by
  cases fr with
  | ret spec v => exact absurd rfl (busy spec v)
  | closure | destructor => cases code
  | load => exact stepLoad_isSome moves
  | pay => exact stepPay_isSome moves
  | into g spec pc =>
      cases pc with
      | inc =>
          simp only [stepFrame, stepInto]
          split <;> rfl
      | pay =>
          simp only [stepFrame, stepInto]
          split
          · exact absurd ‹_› above
          · split <;> rfl
      | decWait => cases moves
  | cas c op cur new pc =>
      cases pc with
      | exchange old =>
          simp only [stepFrame, stepCas]
          split <;> rfl
      | _ => cases moves
  | cache c p pc =>
      cases pc with
      | peek =>
          simp only [stepFrame, stepCache]
          split <;> rfl
      | _ => cases moves
  | cellDrop c pc =>
      cases pc with
      | free => rfl
      | _ => cases moves
  | cellInto c p =>
      cases p with
      | none => cases moves
      | some p => rfl
  | loadFull | swapWait | storeWait | rcu => cases moves
  | get | cool | dec | panicked | guardDrop | swap => rfl

attribute [local simp] Answer.is Answer.isWalk Answer.ends Answer.toUser LoadPc.accepts
  PayPc.accepts CasPc.accepts RcuPc.accepts IntoPc.accepts CachePc.accepts DropPc.accepts
  Frame.accepts Ret.answer Frame.Above

/-- A waiting frame goes on with the answer that it accepts. -/
theorem resume_isSome (accepts : caller.accepts (v.answer spec)) (code : caller.isUser = false)
    (settled : caller.settledOn tls) (above : Frame.Above (caller :: rest) (.ret spec v))
    : (resume sh caller v).isSome := by
  have answered
      : v ≠ .unwound ∨ ∃ c op cur calls, caller = .rcu c op (.closureWait cur calls) := by
    by_cases unwound : v = .unwound
    · subst unwound
      rcases above with user | ⟨c, op, cur, calls, others, eq⟩
      · rw [belowUser, code] at user
        cases user
      · cases eq
        exact .inr ⟨c, op, cur, calls, rfl⟩
    · exact .inl unwound
  cases caller with
  | closure | destructor => cases code
  | load c began loc pc =>
      cases pc with
      | unwind => cases settled
      | _ => cases v <;> simp at accepts answered <;> rfl
  | pay c p since loc pc =>
      cases pc with
      | unwind => cases settled
      | _ => cases v <;> simp at accepts answered <;> rfl
  | cas c op cur new pc =>
      cases pc with
      | unwind => cases settled
      | loadWait began =>
          cases v <;> simp at accepts answered
          simp only [resume]
          split <;> rfl
      | _ => cases v <;> simp at accepts answered <;> rfl
  | rcu c op pc =>
      cases pc with
      | casWait cur new calls =>
          cases v <;> simp at accepts answered
          simp only [resume]
          split <;> rfl
      | _ => cases v <;> simp at accepts answered <;> rfl
  | into g spec pc =>
      cases pc <;> cases v <;> simp at accepts answered
      rfl
  | cache c p pc => cases pc <;> cases v <;> simp at accepts answered <;> rfl
  | cellDrop c pc => cases pc <;> cases v <;> simp at accepts answered <;> rfl
  | cellInto c p =>
      cases v <;> simp at accepts answered
      obtain ⟨rfl, _⟩ := accepts
      rfl
  | _ => cases v <;> simp at accepts answered <;> rfl

end frames

-----------------------------------------------------------------------------------------
-- Steps
-----------------------------------------------------------------------------------------

/-- A stack whose top frame can move, and what its frames rely on. -/
structure StackReady (stack : List Frame) : Prop where
  top : readyTop stack
  above : StackAbove stack

section steps

variable {cfg : Config} {s : State} {sh : Shared} {tls tls' : Tls} {act : Act} {fr caller : Frame}
  {rest frames : List Frame} {spec : Spec} {v : Ret} {δ : Change}

attribute [local simp] readyTop StackAbove Frame.Above Frame.isWaiting

theorem finishLoad_ready {c began now loc g} (below : StackAbove rest)
    : StackReady (finishLoad c began now loc g ++ rest) := by
  cases loc with
  | tls => exact ⟨rfl, trivial, below⟩
  | tmp node =>
      cases node with
      | none => exact ⟨rfl, trivial, below⟩
      | some n => exact ⟨rfl, trivial, trivial, below⟩

theorem finishPay_ready {c p since loc} (below : StackAbove rest)
    : StackReady (finishPay c p since loc ++ rest) := by
  cases loc with
  | tls => exact ⟨rfl, trivial, below⟩
  | tmp node =>
      cases node with
      | none => exact ⟨rfl, trivial, below⟩
      | some n => exact ⟨rfl, trivial, trivial, below⟩

theorem Dispatch.ready {c p since loc h} (step : Dispatch c p since loc h frames)
    (below : StackAbove rest)
    : StackReady (frames ++ rest) := by
  cases step <;> exact ⟨rfl, by simp [below]⟩

theorem isWaiting_entered {c began loc} {fast : Bool}
    : Frame.isWaiting (.load c began loc (if fast then .first else .announce)) = false := by
  cases fast <;> rfl

theorem LoadStep.ready {c began loc pc} (step : LoadStep cfg sh tls c began loc pc act tls' frames)
    (below : StackAbove rest)
    : StackReady (frames ++ rest) := by
  cases step with
  | confirmed | alreadyPaid | ownPaid | unusedPaid => exact finishLoad_ready below
  | enter =>
      refine ⟨?_, by simp [below]⟩
      show Frame.isWaiting _ = false
      exact isWaiting_entered
  | _ => exact ⟨rfl, by simp [below]⟩

theorem isWaiting_at {c p since loc n} : Frame.isWaiting (.pay c p since loc (.at n)) = false := by
  cases n <;> rfl

theorem isWaiting_nextSlot {c p since loc n period j}
    : Frame.isWaiting (.pay c p since loc (.nextSlot n period j)) = false := by
  unfold PayPc.nextSlot
  split <;> rfl

theorem PayStep.ready {c p since loc pc} (step : PayStep cfg sh tls c p since loc pc act frames)
    (below : StackAbove rest)
    : StackReady (frames ++ rest) := by
  cases step with
  | help _ dispatch | again _ dispatch => exact dispatch.ready below
  | head | leave =>
      refine ⟨?_, by simp [below]⟩
      show Frame.isWaiting _ = false
      exact isWaiting_at
  | skip | bump =>
      refine ⟨?_, by simp [below]⟩
      show Frame.isWaiting _ = false
      exact isWaiting_nextSlot
  | _ => exact ⟨rfl, by simp [below]⟩

theorem FrameStep.ready (step : FrameStep cfg sh tls fr act tls' frames)
    (sound : ∀ site, fr ≠ .panicked site) (below : StackAbove rest)
    : StackReady (frames ++ rest) := by
  cases step with
  | panicked => exact absurd rfl (sound _)
  | load step => exact step.ready below
  | pay step => exact step.ready below
  | get step => cases step <;> exact ⟨rfl, by simp [below]⟩
  | cool step => cases step <;> exact ⟨rfl, by simp [below]⟩
  | dec step => cases step <;> exact ⟨rfl, by simp [below]⟩
  | guardDrop step => cases step <;> exact ⟨rfl, by simp [below]⟩
  | into step => cases step <;> exact ⟨rfl, by simp_all⟩
  | _ => exact ⟨rfl, by simp [below]⟩

theorem ResumeStep.ready (step : ResumeStep sh caller v frames) (code : caller.isUser = false)
    (settled : caller.settledOn tls) (above : StackAbove (.ret spec v :: caller :: rest))
    : StackReady (frames ++ rest) := by
  obtain ⟨head, own, below⟩ := above
  cases step with
  | loadDec => exact finishLoad_ready below
  | payDec => exact finishPay_ready below
  | payLost dispatch => exact dispatch.ready below
  | loadUnwind | payUnwindTmp | payUnwind | casUnwind => cases settled
  | loadNode =>
      refine ⟨?_, by simp [below]⟩
      show Frame.isWaiting _ = false
      exact isWaiting_entered
  | unwind step =>
      -- A panic that reaches code of the crate reaches an `rcu` that has called a closure.
      rcases head with user | ⟨c, op, cur, calls, others, eq⟩
      · rw [belowUser, code] at user
        cases user
      · cases eq
        cases step
  | rcuLoad | rcuTry | rcuPanic | rcuSwapped | rcuLost | rcuInto | rcuAgain =>
      have user : belowUser rest := own
      exact ⟨rfl, by simp [below, user]⟩
  | rcuUnwind => exact ⟨rfl, .inl own, below⟩
  | _ => exact ⟨rfl, by simp [below]⟩

theorem Entry.ready {c a} (entry : Entry sh c a frames) (user : belowUser rest)
    (below : StackAbove rest)
    : StackReady (frames ++ rest) := by
  cases entry <;> exact ⟨rfl, by simp [below, user]⟩

/-- User code does not wait. -/
theorem StackReady.user (user : belowUser rest) (below : StackAbove rest) : StackReady rest := by
  refine ⟨?_, below⟩
  cases rest with
  | nil => trivial
  | cons fr rest => cases fr <;> first | rfl | cases user

theorem CallStep.ready (step : CallStep s tls rest δ) (user : δ.old = [] → belowUser rest)
    (linked : StackOk (δ.old ++ rest)) (ready : StackReady (δ.old ++ rest))
    : StackReady (δ.new ++ rest) := by
  cases step with
  | start _ entry | startWith _ _ _ entry => exact entry.ready (user rfl) ready.above
  | dropHandle | dropGuard | guardIntoInner => exact ⟨rfl, trivial, ready.above⟩
  | intoInner | dropCell => exact ⟨rfl, trivial, trivial, ready.above⟩
  | closureRet | destructorRet => exact ⟨rfl, trivial, ready.above.2⟩
  | closurePanic =>
      refine ⟨rfl, .inr ?_, ready.above.2⟩
      have fit := linked.1
      cases rest with
      | nil => cases fit
      | cons caller others =>
          obtain ⟨c, op, cur, calls, rfl, _⟩ := Frame.accepts.closure fit
          exact ⟨c, op, cur, calls, others, rfl⟩
  | exit below =>
      subst below
      cases tls.node with
      | none => exact ready
      | some n => exact ⟨rfl, trivial, trivial⟩
  | _ => exact ready

theorem Move.ready (move : Move cfg s tls rest δ) (linked : StackOk (δ.old ++ rest))
    (settled : ∀ fr ∈ δ.old ++ rest, fr.settledOn tls ∨ ∃ spec, fr = .ret spec .unwound)
    (ready : StackReady (δ.old ++ rest))
    : StackReady (δ.new ++ rest) := by
  cases move with
  | @frame fr act tls' frames step =>
      refine step.ready (fun site eq => ?_) ready.above.2
      subst eq
      rcases settled (.panicked site) (by simp) with no | ⟨_, eq⟩
      · exact no
      · cases eq
  | @resume spec v caller frames waits step =>
      rcases settled caller (by simp) with fine | ⟨_, rfl⟩
      · exact step.ready waits fine ready.above
      · cases step with
        | unwind step => cases step
  | deliver below => exact .user below ready.above.2
  | call below step => exact step.ready below linked ready

end steps

-----------------------------------------------------------------------------------------
-- Every run
-----------------------------------------------------------------------------------------

section runs

variable {cfg : Config} {s : State} {n : Nat} {t : ThreadId} {fr : Frame} {rest : List Frame}

/-- In a run that wraps no counter only closures panic. -/
theorem State.TxOk.settledStack (ok : s.TxOk) (member : t < s.nThr)
    : ∀ fr ∈ (s.thr t).stack, fr.settledOn (s.thr t).tls
      ∨ ∃ spec, fr = .ret spec .unwound := by
  intro fr inside
  rcases (ok.calm t member).frames with all | ⟨spec, rest, eq, _, below⟩
  · exact .inl (all fr inside).settled
  · rw [eq] at inside
    rcases List.mem_cons.mp inside with rfl | there
    · exact .inr ⟨spec, rfl⟩
    · exact .inl (below fr there).settled

theorem ready_of_reaches (reached : Reaches (step cfg) (NoWrap cfg) (State.init n) s)
    : ∀ t, StackReady (s.thr t).stack := by
  refine reached.invariant (I := fun s => ∀ t, StackReady (s.thr t).stack) ?_ ?_
  · exact fun _ => ⟨trivial, trivial⟩
  · intro s l s' before ready _ taken t
    have ok := txOk_of_reaches (fun _ _ => id) before
    obtain ⟨δ, rest, member, top, move, rfl⟩ := step_moves taken
    rw [State.after_thr, Function.update_apply]
    split
    · exact move.ready (top ▸ (ok.pool.disciplined l.thread).linked)
        (top ▸ ok.settledStack member) (top ▸ ready l.thread)
    · exact ready t

/-- As long as no generation counter wraps, a thread in the code of the crate can always make a
step, whether compare-exchanges fail spuriously or not. It waits for no other thread.
-/
theorem never_blocked (reached : Reaches (step cfg) (NoWrap cfg) (State.init n) s)
    (member : t < s.nThr)
    (top : (s.thr t).stack = fr :: rest) (code : fr.isUser = false) (spurious : Bool)
    : ∃ s', step cfg s (.run t spurious) = some s' := by
  have ok := txOk_of_reaches (fun _ _ => id) reached
  have ready := ready_of_reaches reached t
  have linked := (ok.pool.disciplined t).linked
  have settled := ok.settledStack member
  rw [top] at ready linked settled
  have moves : (s.run cfg t spurious).isSome := by
    unfold State.run
    rw [top]
    split
    · rename_i eq
      cases eq
    · rfl
    · rename_i spec v caller others eq
      cases eq
      split
      · rfl
      · rename_i waits
        have waits : caller.isUser = false := by simpa using waits
        rw [Option.isSome_map]
        rcases settled caller (by simp) with fine | ⟨_, rfl⟩
        · exact resume_isSome linked.1 waits fine ready.above.1
        · exact linked.1.elim
    · rename_i alone called eq
      cases eq
      rw [Option.isSome_map]
      refine stepFrame_isSome ready.above.1 ready.top code ?_
      intro spec v eq
      subst eq
      cases rest with
      | nil => exact alone spec v rfl rfl
      | cons caller others => exact called spec v caller others rfl rfl
  obtain ⟨s', taken⟩ := Option.isSome_iff_exists.mp moves
  exact ⟨s'.tick, by simp [step, member, taken]⟩

end runs

/-- A thread in the middle of a transaction goes on. -/
theorem never_blocked_confirm
    : ∃ s s' : State, (s.thr 0).stack = [.load 0 2 .tls (.confirm 0 6 ⟨0, 0, 0⟩)]
        ∧ step ⟨64, true⟩ s (.run 0 true) = some s' := by
  have ran
      : ((runChecked (step ⟨64, true⟩) (wrapsNothing ⟨64, true⟩)
          (State.init 1) fallbackSchedule).map fun s => ((s.thr 0).stack, s.nThr))
          = some ([.load 0 2 .tls (.confirm 0 6 ⟨0, 0, 0⟩)], 1) := by
    rfl
  obtain ⟨s, ran, eq⟩ := Option.map_eq_some_iff.mp ran
  obtain ⟨top, threads⟩ := Prod.mk.inj eq
  have reached := reaches_of_runChecked (fun _ _ => noWrap_of_wrapsNothing) ran
  have member : 0 < s.nThr := by omega
  obtain ⟨s', taken⟩ := never_blocked reached member top rfl true
  exact ⟨s, s', top, taken⟩

-----------------------------------------------------------------------------------------
-- How long a load takes
-----------------------------------------------------------------------------------------

/-- How many steps a load still makes at most, besides those of the functions that it calls. -/
def LoadPc.rank : LoadPc → Nat
  | .enter => 21
  | .nodeWait | .first => 20
  | .scan _ _ k => 12 + (7 - k)
  | .take _ _ _ => 11
  | .recheck _ _ _ => 10
  | .payBack _ _ _ => 9
  | .announce => 8
  | .publish _ _ => 7
  | .discardWait _ _ | .candidate _ _ => 6
  | .fill _ _ _ => 5
  | .confirm _ _ _ => 4
  | .envelope _ _ _ _ => 3
  | .ownInc _ _ | .restore _ _ _ _ => 2
  | .ownPay _ _ | .unused _ _ _ => 1
  | .decWait _ | .coolWait _ | .unwind => 0

/-- The load that was called on the frames `base` makes a step. -/
def loadSteps (t : ThreadId) (base : List Frame) (s : State) (l : Label) (_ : State) : List Label :=
  match (s.thr t).stack with
  | .load _ _ _ _ :: below => if l.thread = t ∧ below = base then [l] else []
  | _ => []

/-- The load has `k` steps left at most, or it has returned. -/
inductive Loading (c : CellId) (began : Nat) (base : List Frame) (k : Nat)
    (stack : List Frame) : Prop
  | runs {above loc pc} (top : stack = above ++ .load c began loc pc :: base) (left : pc.rank ≤ k)
  | done {spec v} (top : stack = .ret spec v :: base)

section loading

variable {cfg : Config} {s s' : State} {sh : Shared} {tls tls' : Tls} {act : Act} {t : ThreadId}
  {c : CellId} {began k : Nat} {loc : Loc} {pc : LoadPc} {base above frames : List Frame}
  {l : Label}

theorem Loading.callee {f : Frame} (left : pc.rank ≤ k)
    : Loading c began base k ([f, .load c began loc pc] ++ base) := by
  have top : [f, .load c began loc pc] ++ base = [f] ++ .load c began loc pc :: base := rfl
  exact .runs top left

theorem Loading.alone (left : pc.rank ≤ k)
    : Loading c began base k ([.load c began loc pc] ++ base) :=
  .runs (above_nil rfl) left

theorem finishLoad_loading {now g}
    : Loading c began base k (finishLoad c began now loc g ++ base) := by
  cases loc with
  | tls => exact .done rfl
  | tmp node =>
      cases node with
      | none => exact .done rfl
      | some n => exact .callee (Nat.zero_le _)

theorem rank_entered {fast : Bool}
    : LoadPc.rank (if fast then .first else .announce) ≤ 20 := by
  cases fast <;> decide

/-- Every step of a load uses up one of the steps that it has left. -/
theorem LoadStep.loading (step : LoadStep cfg sh tls c began loc pc act tls' frames)
    (left : pc.rank ≤ k)
    : 1 ≤ k ∧ Loading c began base (k - 1) (frames ++ base) := by
  cases step with
  | enter =>
      have entered : LoadPc.rank (if sh.useFast c then .first else .announce) ≤ 20 := rank_entered
      simp only [LoadPc.rank] at left
      exact ⟨by omega, .alone (by omega)⟩
  | enterGet | enterTmp =>
      simp only [LoadPc.rank] at left
      exact ⟨by omega, .callee (by simp only [LoadPc.rank]; omega)⟩
  | noNode uses =>
      rcases uses with rfl | rfl | ⟨_, _, _, rfl⟩ <;> simp only [LoadPc.rank] at left
      all_goals exact ⟨by omega, .callee (Nat.zero_le _)⟩
  | confirmed | alreadyPaid | ownPaid | unusedPaid =>
      simp only [LoadPc.rank] at left
      exact ⟨by omega, finishLoad_loading⟩
  | takePanic | announcePanic | publishPanic | publishWrapped | publishWrappedTmp | fillPanic
  | helpedPanic | ownWasPaid | unusedWasPaid =>
      simp only [LoadPc.rank] at left
      exact ⟨by omega, .callee (by simp only [LoadPc.rank]; omega)⟩
  | scanNext more =>
      simp only [LoadPc.rank, DEBT_SLOT_CNT] at left more
      exact ⟨by omega, .alone (by simp only [LoadPc.rank]; omega)⟩
  | _ =>
      simp only [LoadPc.rank] at left
      exact ⟨by omega, .alone (by simp only [LoadPc.rank]; omega)⟩

/-- What a load is given does not make it longer. -/
theorem ResumeStep.loading {v} (step : ResumeStep sh (.load c began loc pc) v frames)
    (left : pc.rank ≤ k)
    : Loading c began base k (frames ++ base) := by
  cases step with
  | loadNode =>
      have entered : LoadPc.rank (if sh.useFast c then .first else .announce) ≤ 20 := rank_entered
      simp only [LoadPc.rank] at left
      exact .alone (by omega)
  | loadDiscard => exact .alone left
  | loadDec => exact finishLoad_loading
  | loadCool => exact .done rfl
  | loadUnwind step | unwind step =>
      cases step with
      | loadTmp => exact .callee left
      | load => exact .done rfl

/-- Only the load itself is at the top of the frames on which it was called. -/
theorem loadSteps_waits {s'} (top : (s.thr t).stack = above ++ .load c began loc pc :: base)
    (covered : l.thread = t → above ≠ [])
    : loadSteps t base s l s' = [] := by
  unfold loadSteps
  rw [top]
  cases above with
  | nil =>
      have other : l.thread ≠ t := fun eq => covered eq rfl
      simp [other]
  | cons fr above =>
      have longer : above ++ .load c began loc pc :: base ≠ base := by
        intro eq
        have lengths := congrArg List.length eq
        simp at lengths
        omega
      cases fr <;> simp [longer]

/-- Besides the steps of the functions that it calls, a load makes 21 steps at most before it
returns, whatever the other threads do.
-/
theorem load_wait_free {log} (top : (s.thr t).stack = .load c began loc .enter :: base)
    (run : Within cfg (fun _ _ => True) t (returned base) (loadSteps t base) s log s')
    : log.length ≤ 21 := by
  suffices spent : ∃ k, log.length + k ≤ 21 ∧ Loading c began base k (s'.thr t).stack by
    obtain ⟨k, le, _⟩ := spent
    omega
  refine run.invariant
    (I := fun log s => ∃ k, log.length + k ≤ 21 ∧ Loading c began base k (s.thr t).stack)
    ?_ ?_
  · exact ⟨21, Nat.le_refl _, .runs (above_nil top) (Nat.le_refl _)⟩
  · intro log s₁ l s₂ _ spent inside _ taken
    obtain ⟨k, le, loading⟩ := spent
    cases loading with
    | @runs above loc pc top left =>
        cases step_follows taken top rfl with
        | waits top' covered =>
            refine ⟨k, ?_, .runs top' left⟩
            rw [loadSteps_waits top fun thread => (covered thread).1]
            simpa using le
        | moves thread empty step _ top' =>
            subst empty
            cases step with
            | load step =>
                obtain ⟨some, loading⟩ : 1 ≤ k ∧ Loading c began base (k - 1) _ :=
                  step.loading left
                refine ⟨k - 1, ?_, top' ▸ loading⟩
                have own : loadSteps t base s₁ l s₂ = [l] := by simp [loadSteps, top, thread]
                rw [own, List.length_append, List.length_singleton]
                omega
        | answered thread ret step _ top' =>
            refine ⟨k, ?_, top' ▸ step.loading left⟩
            rw [loadSteps_waits top fun _ => by simp [ret]]
            simpa using le
    | @done spec v top =>
        -- The load has returned, and its thread waits at the end of the call.
        have other : l.thread ≠ t := fun eq => inside eq ⟨spec, v, top⟩
        refine ⟨k, ?_, .done (step_others taken (Ne.symm other) ▸ top)⟩
        simpa [loadSteps, top] using le

end loading

/-- The first step of a load. -/
theorem load_wait_free_first
    : ∃ (s s' : State) (log : List Label), (s.thr 0).stack = [.load 0 2 .tls .enter]
        ∧ step ⟨64, true⟩ s (.run 0 false) = some s' ∧ log = [.run 0 false]
          ∧ log.length ≤ 21 := by
  have ran
      : (runChecked (step ⟨64, true⟩) (fun _ _ => true) (State.init 1)
            [.call 0 (.null 0), .call 0 (.new 0 100 false), .call 0 (.load 0)]).map
          (fun s => ((s.thr 0).stack, (step ⟨64, true⟩ s (.run 0 false)).isSome))
        = some ([.load 0 2 .tls .enter], true) := by
    decide
  obtain ⟨s, ran, eq⟩ := Option.map_eq_some_iff.mp ran
  obtain ⟨top, enabled⟩ := Prod.mk.inj eq
  obtain ⟨s', taken⟩ := Option.isSome_iff_exists.mp enabled
  have inside : ¬ returned [] (s.thr 0).stack := by
    rw [top]
    intro ⟨_, _, eq⟩
    cases eq
  have run : Within ⟨64, true⟩ (fun _ _ => True) 0 (returned []) (loadSteps 0 []) s _ s' :=
    .step .start (fun _ => inside) trivial taken
  refine ⟨s, s', _, top, taken, ?_, load_wait_free top run⟩
  simp [loadSteps, top, Label.thread]

end ArcSwap
