import ArcSwap.Proofs.CalmRuns

/-! The assertions of the helping protocol. In a run that wraps no counter each of them holds
whenever a thread is about to execute it, and no thread is in a panic of the crate.
-/

namespace ArcSwap

open Bags GuardedRuns

/-- What the assertions of `helping.rs` say about the access that a frame is about to make.
-/
def Frame.AssertsHold (sh : Shared) (tls : Tls) : Frame → Prop
  | .load _ _ _ (.publish n _) => sh.control n = IDLE
  | .load _ _ loc (.fill n _ _) => loc.node tls = some n ∧ sh.slot n HELPING = NONE
  | .load _ _ _ (.confirm n gen _) =>
      sh.control n = gen ∨ tagOf (sh.control n) = REPLACEMENT_TAG
  | .pay _ _ _ loc (.help n _) =>
      (∃ self, loc.node tls = some self ∧ sh.control self = IDLE) ∧ Word (sh.control n)
  | .pay _ _ _ _ (.activeLoad h) => h.self ≠ h.who
  | .pay _ _ _ _ (.recheck h) => Word (sh.control h.who)
  | .pay _ _ _ _ (.fillSpace _ _ _ mine) => tagOf mine = 0
  | .pay _ _ _ _ (.lostWait h) => Word h.control
  | .panicked _ => False
  | _ => True

section top

variable {s : State} {t : ThreadId} {fr : Frame} {rest : List Frame}

/-- The frames of a calm thread, apart from a panic that reaches its end. -/
theorem Thread.Calm.frame {sh : Shared} {th : Thread} (calm : Thread.Calm sh th)
    (inside : fr ∈ th.stack) (other : ∀ spec, fr ≠ .ret spec .unwound)
    : fr.Calm sh th.tls := by
  rcases calm.frames with all | ⟨spec, below, eq, _, all⟩
  · exact all fr inside
  · rw [eq] at inside
    rcases List.mem_cons.mp inside with rfl | inside
    · exact absurd rfl (other spec)
    · exact all fr inside

/-- What the session of a frame knows. -/
theorem State.TxOk.session {n ses} (inv : s.TxOk) (member : t < s.nThr)
    (inside : fr ∈ (s.thr t).stack) (held : .session n ses ∈ fr.tokens)
    : ses.Ok s.sh n :=
  inv.tx.sessions.ok n ses
    (mem_sessions.mpr (State.mem_shares_of_frame (S := tokenShare) member inside held))

/-- What the walk of a frame knows. -/
theorem State.TxOk.walk {c p since pos} (inv : s.TxOk) (member : t < s.nThr)
    (inside : fr ∈ (s.thr t).stack) (held : .walk c p since pos ∈ fr.tokens)
    : pos.Ok s.sh c :=
  inv.tx.walks.pos c p since pos
    (State.mem_shares_of_frame (S := tokenShare) member inside held)

/-- The node of a helper is idle when `help` starts. -/
theorem State.TxOk.selfIdle {c p since loc n period} (inv : s.TxOk) (member : t < s.nThr)
    (top : (s.thr t).stack = .pay c p since loc (.help n period) :: rest)
    : ∃ self, loc.node (s.thr t).tls = some self ∧ s.sh.control self = IDLE := by
  have inside : Frame.pay c p since loc (.help n period) ∈ (s.thr t).stack := by simp [top]
  have settled := ((inv.calm t member).frame inside (by simp)).settled
  obtain ⟨self, node⟩ := Option.isSome_iff_exists.mp settled
  refine ⟨self, node, ?_⟩
  -- The step of this frame, whatever the build parameters are.
  have step
      : stepFrame ⟨0, false⟩ s.sh (s.thr t).tls false (.pay c p since loc (.help n period))
        = some _ := rfl
  have move : Move ⟨0, false⟩ s (s.thr t).tls rest _ := .frame (stepFrame_moves step)
  have ctx := inv.context member top move
  have owned := Loc.owned node
  have idle := ctx.idle self (by
    simp only [listed_cons, listed_nil, add_zero, Frame.holds, Multiset.mem_add] at owned ⊢
    tauto)
  refine (ctx.tx.sessions.idle ?_).control
  simpa [Frame.tokens, PayPc.tokens] using idle

/-- The assertions hold whenever a thread comes to them. -/
theorem State.TxOk.assertsHold (inv : s.TxOk) (member : t < s.nThr)
    (top : (s.thr t).stack = fr :: rest)
    : fr.AssertsHold s.sh (s.thr t).tls := by
  have inside : fr ∈ (s.thr t).stack := by simp [top]
  have calm := (inv.calm t member).frame inside
  have word := inv.tx.sessions.word
  cases fr with
  | panicked site => exact (calm (by simp)).settled
  | load c began loc pc =>
      cases pc with
      | publish n gen =>
          have ok : (Session.announced c gen).Ok s.sh n :=
            inv.session member inside (by simp [Frame.tokens, LoadPc.tokens])
          exact ok.1.control
      | fill n gen p =>
          have ok : (Session.candidate c gen p).Ok s.sh n :=
            inv.session member inside (by simp [Frame.tokens, LoadPc.tokens])
          exact ⟨(calm (by simp)).settled, ok.2⟩
      | confirm n gen p =>
          have ok : (Session.filled c gen p).Ok s.sh n :=
            inv.session member inside (by simp [Frame.tokens, LoadPc.tokens])
          exact ok.1.control.imp And.left And.left
      | _ => trivial
  | pay c p since loc pc =>
      cases pc with
      | help n period => exact ⟨inv.selfIdle member top, word n⟩
      | activeLoad h =>
          have held : .walk c p since (.active h) ∈ (PayPc.activeLoad h).tokens c p since := by
            simp [PayPc.tokens]
          have ok : (Pos.active h).Ok s.sh c := inv.walk member inside held
          exact ok.1.other.symm
      | recheck h => exact word h.who
      | fillSpace h r their mine =>
          have ok : (Session.envelope mine).Ok s.sh h.self :=
            inv.session member inside (by simp [Frame.tokens, PayPc.tokens])
          exact ok.2
      | lostWait h =>
          have held : .walk c p since (.lost h) ∈ (PayPc.lostWait h).tokens c p since := by
            simp [PayPc.tokens]
          have ok : (Pos.lost h).Ok s.sh c := inv.walk member inside held
          exact ok.2.2.2.1
      | _ => trivial
  | _ => trivial

end top

-----------------------------------------------------------------------------------------
-- Every run
-----------------------------------------------------------------------------------------

/-- No assertion of the helping protocol fires as long as no generation counter wraps, and no
other panic of the crate is on the stack of a thread.
-/
theorem assertions_hold {cfg n s}
    (reached : Reaches (step cfg) (NoWrap cfg) (State.init n) s)
    : ∀ t < s.nThr,
        (∀ site, .panicked site ∉ (s.thr t).stack)
        ∧ ∀ fr rest, (s.thr t).stack = fr :: rest → fr.AssertsHold s.sh (s.thr t).tls := by
  have inv := txOk_of_reaches (fun _ _ => id) reached
  refine fun t member => ⟨fun site inside => ?_, fun fr rest top => inv.assertsHold member top⟩
  exact ((inv.calm t member).frame inside (by simp)).settled

/-- A load without fast slots by a thread that has no node yet, up to the end of its
transaction.
-/
def fallbackSchedule : List Label :=
  [.call 0 (.null 0), .call 0 (.new 0 100 false), .call 0 (.load 0)]
    ++ List.replicate 9 (.run 0 false)

theorem assertions_hold_confirm
    : ∃ s : State, (s.thr 0).stack = [.load 0 2 .tls (.confirm 0 6 ⟨0, 0, 0⟩)]
        ∧ (s.sh.control 0 = 6 ∨ tagOf (s.sh.control 0) = REPLACEMENT_TAG) := by
  have ran
      : ((runChecked (step ⟨64, true⟩) (wrapsNothing ⟨64, true⟩) (State.init 1)
            fallbackSchedule).map fun s => ((s.thr 0).stack, s.nThr))
          = some ([.load 0 2 .tls (.confirm 0 6 ⟨0, 0, 0⟩)], 1) := by
    rfl
  obtain ⟨s, ran, eq⟩ := Option.map_eq_some_iff.mp ran
  obtain ⟨top, threads⟩ := Prod.mk.inj eq
  have reached := reaches_of_runChecked (fun _ _ => noWrap_of_wrapsNothing) ran
  exact ⟨s, top, (assertions_hold reached 0 (by omega)).2 _ _ top⟩

end ArcSwap
