import ArcSwap.Proofs.CalmRuns

/-! A run in which the generation counter wraps, for any width of `usize`. A single thread
makes fallback loads of a null pointer, each of which raises the counter by 4. The load whose
counter is 0 gives the node away with its generation published, and does not get a new node
before `confirm_helping` expects one.
-/

namespace ArcSwap

open GuardedRuns

/-- A program with one thread, whose storage 0 holds null and is used without fast slots, and
whose only node is in the state `use`. User code has the value `val`.
-/
structure Lone (val : Option UserVal) (tls : Tls) (stack : List Frame)
    (control slot use : Nat) (s : State) : Prop where
  threads : s.nThr = 1
  thread : s.thr 0 = ⟨tls, stack⟩
  live : s.sh.status 0 = .live
  slow : s.sh.useFast 0 = false
  ptr : s.sh.ptr 0 = ⟨0, 0, 0⟩
  ty : s.sh.cellTy 0 = 0
  inUse : s.sh.inUse 0 = use
  control : s.sh.control 0 = control
  slot : s.sh.slot 0 HELPING = slot
  val : s.vals 1 = val
  vals : 1 < s.nVals

/-- A state is reached from another without a recurring generation. -/
abbrev Leads (cfg : Config) (s s' : State) : Prop :=
  Reaches (step cfg) NoRecur s s'

/-- The storages stay as they are. -/
def Act.offStorage (act : Act) : Prop :=
  ∀ sh, (act.exec sh).status = sh.status ∧ (act.exec sh).useFast = sh.useFast
    ∧ (act.exec sh).ptr = sh.ptr ∧ (act.exec sh).cellTy = sh.cellTy

theorem Act.offStorage_nop : Act.nop.offStorage := fun _ => ⟨rfl, rfl, rfl, rfl⟩

/-- The frames of operations other than walks. -/
def NoWalks (stack : List Frame) : Prop :=
  ∀ c p since loc pc, .pay c p since loc pc ∉ stack

theorem NoWalks.nil : NoWalks [] := by
  intro c p since loc pc inside
  cases inside

section lone

variable (cfg : Config) {val : Option UserVal} {tls : Tls} {control slot use : Nat} {s : State}
  {fr : Frame} {rest : List Frame}

theorem Lone.noRecur {stack} (here : Lone val tls stack control slot use s) (quiet : NoWalks stack)
    (l : Label)
    : NoRecur s l := by
  intro c began loc n gen rest _ t member fr inside
  obtain rfl : t = 0 := by have := here.threads; omega
  rw [here.thread] at inside
  cases fr with
  | pay => exact (quiet _ _ _ _ _ inside).elim
  | _ => rfl

/-- The top frame makes a step. -/
theorem Lone.frame (here : Lone val tls (fr :: rest) control slot use s)
    (quiet : NoWalks (fr :: rest))
    (act : Act) (tls' : Tls) (frames : List Frame) (control' slot' use' : Nat)
    (moves : stepFrame cfg s.sh tls false fr = some ⟨act, tls', frames⟩)
    (off : act.offStorage) (word : (act.exec s.sh).control 0 = control')
    (debt : (act.exec s.sh).slot 0 HELPING = slot') (state : (act.exec s.sh).inUse 0 = use')
    : ∃ s', Leads cfg s s' ∧ Lone val tls' (frames ++ rest) control' slot' use' s' := by
  obtain ⟨status, useFast, ptr, ty⟩ := off s.sh
  refine ⟨{
      s with
      sh := s.sh.after act
      thr := Function.update s.thr 0 ⟨tls', frames ++ rest⟩
    }, .step .start (here.noRecur quiet (.run 0 false)) ?_, ?_⟩
  · have ran
        : s.run cfg 0 false
          = some {
              s with
              sh := act.exec s.sh
              thr := Function.update s.thr 0 ⟨tls', frames ++ rest⟩
            } := by
      rw [State.run, here.thread]
      cases fr <;> first | (simp only [stepFrame] at moves; cases moves; done) | simp [moves]
    simp [step, here.threads, ran, State.tick, Shared.after]
  · constructor
    · exact here.threads
    · simp
    · exact (congrFun status 0).trans here.live
    · exact (congrFun useFast 0).trans here.slow
    · exact (congrFun ptr 0).trans here.ptr
    · exact (congrFun ty 0).trans here.ty
    · exact state
    · exact word
    · exact debt
    · exact here.val
    · exact here.vals

/-- `LocalNode` of a thread with the node 0. -/
def Tls.at (generation : Nat) : Tls := ⟨true, some 0, 0, generation⟩

/-- A fallback load until it publishes its generation. -/
theorem Lone.announced {began g next}
    (here
      : Lone val (.at g) (.load 0 began .tls .enter :: rest) IDLE NONE NODE_USED s)
    (quiet : NoWalks rest) (eq : nextGeneration cfg g = next) (aligned : next % 4 = 0)
    : ∃ s', Leads cfg s s'
        ∧ Lone val (.at next) (.load 0 began .tls (.publish 0 next) :: rest) IDLE NONE NODE_USED
            s' := by
  have word : next / 2 % 2 = 0 := by omega
  have loads {pc} : NoWalks (.load 0 began .tls pc :: rest) := by
    intro c p since loc pc inside
    exact quiet c p since loc pc (by simpa using inside)
  obtain ⟨s₁, run₁, at₁⟩ := here.frame cfg loads .nop (.at g)
    [.load 0 began .tls .announce] IDLE NONE NODE_USED
    (by simp [stepFrame, stepLoad, here.slow, Tls.at]) Act.offStorage_nop here.control here.slot
    here.inUse
  obtain ⟨s₂, run₂, at₂⟩ := at₁.frame cfg loads (.announce 0 (s₁.sh.cellAddr 0))
    (.at next) [.load 0 began .tls (.publish 0 next)] IDLE NONE NODE_USED
    (by
      simp [stepFrame, stepLoad, withNode, Loc.node, at₁.inUse, Loc.generation,
        Loc.setGeneration, eq, word, Config.debugAssert, Tls.at])
    (fun _ => ⟨rfl, rfl, rfl, rfl⟩) at₁.control at₁.slot at₁.inUse
  exact ⟨s₂, run₁.trans run₂, at₂⟩

/-- Another stack for the thread. -/
theorem Lone.restack {stack stack'} (here : Lone val tls stack control slot use s)
    : Lone val tls stack' control slot use (s.setStack 0 stack').tick where
  threads := here.threads
  thread := by simp [State.setStack, State.tick, here.thread]
  live := here.live
  slow := here.slow
  ptr := here.ptr
  ty := here.ty
  inUse := here.inUse
  control := here.control
  slot := here.slot
  val := here.val
  vals := here.vals

/-- User code starts an operation without a value. -/
theorem Lone.start {k : Call} {frames} (here : Lone val tls [] control slot use s)
    (starts : s.call 0 k = some (s.push 0 frames))
    : ∃ s', Leads cfg s s' ∧ Lone val tls frames control slot use s' := by
  have push : s.push 0 frames = s.setStack 0 frames := by simp [State.push, here.thread]
  refine ⟨_, .step .start (here.noRecur .nil (.call 0 k)) ?_, here.restack⟩
  simp [step, here.threads, State.atUser, here.thread, starts, push]

/-- A complete fallback load raises the counter. -/
theorem Lone.pass {g} (here : Lone val (.at g) [] IDLE NONE NODE_USED s)
    (aligned : g % 4 = 0) (fits : g + 4 < 2 ^ cfg.width)
    : ∃ s', Leads cfg s s' ∧ Lone val (.at (g + 4)) [] IDLE NONE NODE_USED s' := by
  obtain ⟨s₀, run₀, at₀⟩
      : ∃ s', Leads cfg s s'
          ∧ Lone val (.at g) [.load 0 s.sh.time .tls .enter] IDLE NONE NODE_USED s' := by
    exact here.start cfg (k := .load 0) (by simp [State.call, State.start, here.live, entry])
  generalize s.sh.time = began at at₀
  have quiet : NoWalks [] := .nil
  have loads {pc} : NoWalks [.load 0 began .tls pc] := by
    intro c p since loc pc inside
    simp at inside
  obtain ⟨s₁, run₁, at₁⟩ := at₀.announced cfg quiet (Nat.mod_eq_of_lt fits) (by omega)
  obtain ⟨s₂, run₂, at₂⟩ := at₁.frame cfg loads (.publish 0 (g + 4 + GEN_TAG))
    (.at (g + 4)) [.load 0 began .tls (.candidate 0 (g + 4 + GEN_TAG))] (g + 4 + GEN_TAG) NONE
    NODE_USED (by simp [stepFrame, stepLoad, at₁.control]) (fun _ => ⟨rfl, rfl, rfl, rfl⟩)
    (by simp [Act.exec]) at₁.slot at₁.inUse
  obtain ⟨s₃, run₃, at₃⟩ := at₂.frame cfg loads .nop (.at (g + 4))
    [.load 0 began .tls (.fill 0 (g + 4 + GEN_TAG) ⟨0, 0, 0⟩)] (g + 4 + GEN_TAG) NONE NODE_USED
    (by simp [stepFrame, stepLoad, at₂.ptr]) Act.offStorage_nop at₂.control
    at₂.slot at₂.inUse
  obtain ⟨s₄, run₄, at₄⟩ := at₃.frame cfg loads
    (.register 0 HELPING ⟨0, 0, 0⟩ began) (.at (g + 4))
    [.load 0 began .tls (.confirm 0 (g + 4 + GEN_TAG) ⟨0, 0, 0⟩)]
    (g + 4 + GEN_TAG) 0 NODE_USED
    (by
      simp [stepFrame, stepLoad, withNode, Loc.node, at₃.inUse, at₃.slot, Config.debugAssert,
        Tls.at])
    (fun _ => ⟨rfl, rfl, rfl, rfl⟩) at₃.control (by simp [Act.exec, set₂]) at₃.inUse
  obtain ⟨s₅, run₅, at₅⟩ := at₄.frame cfg loads (.goIdle 0) (.at (g + 4))
    [.load 0 began .tls (.ownInc 0 ⟨0, 0, 0⟩)] IDLE 0 NODE_USED
    (by simp [stepFrame, stepLoad, at₄.control]) (fun _ => ⟨rfl, rfl, rfl, rfl⟩)
    (by simp [Act.exec]) at₄.slot at₄.inUse
  obtain ⟨s₆, run₆, at₆⟩ := at₅.frame cfg loads .nop (.at (g + 4))
    [.load 0 began .tls (.ownPay 0 ⟨0, 0, 0⟩)] IDLE 0 NODE_USED
    (by simp [stepFrame, stepLoad, incAct]) Act.offStorage_nop at₅.control at₅.slot at₅.inUse
  obtain ⟨s₇, run₇, at₇⟩ := at₆.frame cfg loads (.settle 0 HELPING) (.at (g + 4))
    [.ret (.load 0 began) (.prot ⟨⟨0, 0, 0⟩, none, some ⟨0, began, s₆.sh.time⟩⟩)]
    IDLE NONE NODE_USED (by simp [stepFrame, stepLoad, at₆.slot, finishLoad])
    (fun _ => ⟨rfl, rfl, rfl, rfl⟩) at₆.control (by simp [Act.exec, set₂]) at₆.inUse
  have due : NoRecur s₇ (.run 0 false) := at₇.noRecur (by intro; simp) _
  obtain ⟨threads, thread, live, slow, ptr, ty, used, idle, empty, same, bound⟩ := at₇
  obtain ⟨s₈, taken, at₈⟩
      : ∃ s', step cfg s₇ (.run 0 false) = some s'
          ∧ Lone val (.at (g + 4)) [] IDLE NONE NODE_USED s' := by
    have other : 1 ≠ s₇.nVals := by omega
    simp [step, threads, State.run, thread, State.setStack, State.deliver, State.give,
      State.tick]
    constructor <;> simp [*]
    exact Nat.lt_of_succ_lt bound
  refine ⟨s₈, ?_, at₈⟩
  exact run₀.trans <| run₁.trans <| run₂.trans <| run₃.trans <| run₄.trans <| run₅.trans
    <| run₆.trans <| run₇.trans <| .step .start due taken

/-- The counter can be raised as far as it goes. -/
theorem Lone.raise (k : Nat) {g} (here : Lone val (.at g) [] IDLE NONE NODE_USED s)
    (aligned : g % 4 = 0) (fits : g + 4 * k < 2 ^ cfg.width)
    : ∃ s', Leads cfg s s' ∧ Lone val (.at (g + 4 * k)) [] IDLE NONE NODE_USED s' := by
  induction k with
  | zero => exact ⟨s, .start, here⟩
  | succ k ih =>
      obtain ⟨s₁, run₁, at₁⟩ := ih (by omega)
      obtain ⟨s₂, run₂, at₂⟩ := at₁.pass cfg (by omega) (by omega)
      exact ⟨s₂, run₁.trans run₂, at₂⟩

/-- The load whose counter has wrapped sends its node to cooldown, with the generation
published, and forgets it.
-/
theorem Lone.wrap {began g}
    (here : Lone val (.at g) (.load 0 began .tls .enter :: rest) IDLE NONE NODE_USED s)
    (quiet : NoWalks rest) (wraps : nextGeneration cfg g = 0)
    : ∃ s' period, Leads cfg s s'
        ∧ Lone val ⟨true, none, 0, 0⟩
            (.cool 0 (.unreserve period) :: .load 0 began .tls (.discardWait 0 GEN_TAG) :: rest)
            GEN_TAG NONE NODE_COOLDOWN s' := by
  have loads {pc} : NoWalks (.load 0 began .tls pc :: rest) := by
    intro c p since loc pc inside
    exact quiet c p since loc pc (by simpa using inside)
  have cools {pc}
      : NoWalks (.cool 0 pc :: .load 0 began .tls (.discardWait 0 GEN_TAG) :: rest) := by
    intro c p since loc pc inside
    exact quiet c p since loc pc (by simpa using inside)
  obtain ⟨s₁, run₁, at₁⟩ := here.announced cfg quiet wraps rfl
  obtain ⟨s₂, run₂, at₂⟩ := at₁.frame cfg loads (.publish 0 GEN_TAG)
    ⟨true, none, 0, 0⟩
    [.cool 0 .reserve, .load 0 began .tls (.discardWait 0 GEN_TAG)] GEN_TAG NONE NODE_USED
    (by simp [stepFrame, stepLoad, at₁.control, Tls.at]) (fun _ => ⟨rfl, rfl, rfl, rfl⟩)
    (by simp [Act.exec]) at₁.slot at₁.inUse
  obtain ⟨s₃, run₃, at₃⟩ := at₂.frame cfg cools (.enterWriter 0) ⟨true, none, 0, 0⟩
    [.cool 0 (.swap (s₂.sh.epoch 0))] GEN_TAG NONE NODE_USED rfl
    (fun _ => ⟨rfl, rfl, rfl, rfl⟩) at₂.control at₂.slot at₂.inUse
  obtain ⟨s₄, run₄, at₄⟩ := at₃.frame cfg cools (.cooldown 0) ⟨true, none, 0, 0⟩
    [.cool 0 (.unreserve (s₂.sh.epoch 0))] GEN_TAG NONE NODE_COOLDOWN
    (by simp [stepFrame, stepCool, at₃.inUse]) (fun _ => ⟨rfl, rfl, rfl, rfl⟩)
    at₃.control at₃.slot (by simp [Act.exec])
  exact ⟨s₄, _, run₁.trans <| run₂.trans <| run₃.trans run₄, at₄⟩

end lone

-----------------------------------------------------------------------------------------
-- The run
-----------------------------------------------------------------------------------------

/-- Three null values, of which one goes into a storage without fast slots, and a store that
makes the node.
-/
def openingSchedule : List Label :=
  [.call 0 (.null 0), .call 0 (.null 0), .call 0 (.new 0 100 false), .call 0 (.null 0),
      .call 0 (.store 0 2)]
    ++ List.replicate 27 (.run 0 false)

/-- Whether a step publishes nothing, computed. -/
def publishesNothing (s : State) (l : Label) : Bool :=
  match (s.thr l.thread).stack with
  | .load _ _ _ (.publish _ _) :: _ => false
  | _ => true

theorem noRecur_of_publishesNothing {s l} (checked : publishesNothing s l = true)
    : NoRecur s l := by
  intro c began loc n gen rest top
  simp [publishesNothing, top] at checked

theorem opening (width : Nat) (debug : Bool)
    : ∃ s, Leads ⟨width, debug⟩ (State.init 1) s
        ∧ Lone (some (.handle ⟨0, 0, 0⟩)) (.at 0) [] IDLE NONE NODE_USED s := by
  let view (s : State) :=
    (s.nThr, s.thr 0, s.sh.status 0, s.sh.useFast 0, s.sh.ptr 0, s.sh.cellTy 0, s.sh.inUse 0,
      s.sh.control 0, s.sh.slot 0 HELPING, s.vals 1, s.nVals)
  have ran
      : (runChecked (step ⟨width, debug⟩) publishesNothing
          (State.init 1) openingSchedule).map view
        = some (1, ⟨.at 0, []⟩, .live, false, ⟨0, 0, 0⟩, 0, NODE_USED, IDLE, NONE,
            some (.handle ⟨0, 0, 0⟩), 3) := by
    cases debug <;> rfl
  obtain ⟨s, ran, eq⟩ := Option.map_eq_some_iff.mp ran
  simp only [view, Prod.mk.injEq] at eq
  obtain ⟨threads, thread, live, slow, ptr, ty, inUse, control, slot, val, vals⟩ := eq
  exact ⟨s, reaches_of_runChecked (fun _ _ => noRecur_of_publishesNothing) ran,
    threads, thread, live, slow, ptr, ty, inUse, control, slot, val, by omega⟩

/-- The counter can be brought to its last value. -/
theorem overflow_due {width : Nat} (wide : 3 ≤ width) (debug : Bool)
    : ∃ s g, nextGeneration ⟨width, debug⟩ g = 0
        ∧ Leads ⟨width, debug⟩ (State.init 1) s
        ∧ Lone (some (.handle ⟨0, 0, 0⟩)) (.at g) [] IDLE NONE NODE_USED s := by
  obtain ⟨s₀, run₀, at₀⟩ := opening width debug
  obtain ⟨k, rfl⟩ := Nat.exists_eq_add_of_le wide
  have power : 2 ^ (3 + k) = 4 * 2 ^ (k + 1) := by
    rw [show 3 + k = 2 + (k + 1) by omega, Nat.pow_add]
  have room : 0 < 2 ^ (k + 1) := Nat.two_pow_pos _
  obtain ⟨s₁, run₁, at₁⟩ := at₀.raise ⟨3 + k, debug⟩ (2 ^ (k + 1) - 1) rfl
    (by simp only [power]; omega)
  refine ⟨s₁, _, ?_, run₀.trans run₁, at₁⟩
  have last : 0 + 4 * (2 ^ (k + 1) - 1) + 4 = 2 ^ (3 + k) := by omega
  rw [nextGeneration, last, Nat.mod_self]

end ArcSwap
