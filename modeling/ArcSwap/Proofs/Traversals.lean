import ArcSwap.Proofs.NodeList

/-! Traversals of the list of debt nodes, by `Node::get` and by `Debt::pay_all`. -/

namespace ArcSwap

open GuardedRuns Chains

-----------------------------------------------------------------------------------------
-- Where a traversal is
-----------------------------------------------------------------------------------------

/-- Where a traversal is in the list, once it has read the head. -/
inductive Place
  /-- The closure is called for the node next. -/
  | before (n : NodeId)
  /-- The closure works on the node. -/
  | inside (n : NodeId)
  /-- The traversal is over, and it was not stopped. -/
  | done
  /-- A panic of the closure has stopped the traversal. -/
  | left
deriving DecidableEq

/-- The place at a node, or at the end of the list. -/
def Place.at : Option NodeId → Place
  | none => .done
  | some n => .before n

def GetPc.place : GetPc → Option Place
  | .head => none
  | .checkUse n => some (.before n)
  | .checkWriters n | .release n _ | .claim n => some (.inside n)
  | .fresh | .link _ _ => some .done

def PayPc.place : PayPc → Option Place
  | .enter | .nodeWait | .inc | .head => none
  | .reserve n => some (.before n)
  | .help n _ | .slots n _ _ | .bump n _ _ | .leave n _ => some (.inside n)
  | .activeLoad h | .recheck h | .replaceWait h _ | .theirSpace h _ | .mySpace h _ _
  | .fillSpace h _ _ _ | .offer h _ _ _ | .exchange h _ | .lostWait h => some (.inside h.who)
  | .dropVal | .decWait | .coolWait => some .done
  | .unwind _ | .abandon _ _ => some .left

def Frame.place : Frame → Option Place
  | .get _ pc => pc.place
  | .pay _ _ _ _ pc => pc.place
  | _ => none

/-- A traversal that reads the head of the list next. -/
def Frame.readsHead : Frame → Bool
  | .get _ .head | .pay _ _ _ _ .head => true
  | _ => false

/-- The node for which the closure is called in the next step. -/
def Place.visits : Place → List NodeId
  | .before n => [n]
  | _ => []

/-- The node for which the traversal right above the frames `base` calls its closure in the
next step of the thread.
-/
def visit (base : List Frame) : List Frame → List NodeId
  | fr :: rest => if rest = base then (fr.place.map Place.visits).getD [] else []
  | [] => []

/-- The calls of the closure that a step of thread `t` makes. -/
def visited (t : ThreadId) (base : List Frame) (s : State) (l : Label) (_ : State) : List NodeId :=
  if l.thread = t then visit base (s.thr t).stack else []

/-- The closure was called for `log`, and the traversal is in the list `nodes`. -/
def Place.Told (sh : Shared) (nodes log : List NodeId) : Place → Prop
  | .before n => ∃ todo, nodes = log ++ n :: todo ∧ Chain sh.next (sh.next n) todo
  | .inside n => ∃ todo, nodes = log ++ todo ∧ n ∈ log ∧ Chain sh.next (sh.next n) todo
  | .done => log = nodes
  | .left => log.IsPrefix nodes

section places

variable {sh sh' : Shared} {nodes log : List NodeId}

theorem GetPc.place_at (o : Option NodeId) : (GetPc.at o).place = some (Place.at o) := by
  cases o <;> rfl

theorem PayPc.place_at (o : Option NodeId) : (PayPc.at o).place = some (Place.at o) := by
  cases o <;> rfl

theorem Place.Told.at {o todo} (chain : Chain sh.next o todo)
    : (Place.at o).Told sh (log ++ todo) log := by
  rcases chain.head_cases with ⟨rfl, rfl⟩ | ⟨n, rest, rfl, rfl, tail⟩
  · exact (List.append_nil log).symm
  · exact ⟨rest, rfl, tail⟩

/-- The closure is called for the node. -/
theorem Place.Told.enter {n} (told : (Place.before n).Told sh nodes log)
    : (Place.inside n).Told sh nodes (log ++ [n]) := by
  obtain ⟨todo, rfl, tail⟩ := told
  exact ⟨todo, by simp, by simp, tail⟩

/-- The closure returns, and the traversal goes on. -/
theorem Place.Told.next {n} (told : (Place.inside n).Told sh nodes log)
    : (Place.at (sh.next n)).Told sh nodes log := by
  obtain ⟨todo, rfl, _, tail⟩ := told
  exact .at tail

theorem Place.Told.initial {place : Place} (told : place.Told sh nodes log)
    : log.IsPrefix nodes := by
  cases place with
  | before n =>
      obtain ⟨todo, rfl, _⟩ := told
      exact List.prefix_append _ _
  | inside n =>
      obtain ⟨todo, rfl, _⟩ := told
      exact List.prefix_append _ _
  | done => exact ⟨[], (List.append_nil log).trans told⟩
  | left => exact told

/-- The list behind the place does not change. -/
theorem Place.Told.keep {place : Place} (told : place.Told sh nodes log) (grows : sh.Extends sh')
    (linked : ∀ n ∈ nodes, sh.linked n = true)
    : place.Told sh' nodes log := by
  cases place with
  | before n =>
      obtain ⟨todo, rfl, tail⟩ := told
      refine ⟨todo, rfl, ?_⟩
      rw [grows.next n (linked n (by simp))]
      exact grows.chain tail fun m inside => linked m (by simp [inside])
  | inside n =>
      obtain ⟨todo, rfl, before, tail⟩ := told
      refine ⟨todo, rfl, before, ?_⟩
      rw [grows.next n (linked n (by simp [before]))]
      exact grows.chain tail fun m inside => linked m (by simp [inside])
  | done | left => exact told

/-- The frames that a traversal has become, with what it has called on top of it. -/
inductive Lands (sh : Shared) (nodes log : List NodeId) : List Frame → Prop
  | goesOn (above) {fr place} (there : Frame.place fr = some place) (told : place.Told sh nodes log)
    : Lands sh nodes log (above ++ [fr])
  | returns {spec v} (visited : log.IsPrefix nodes) (whole : ∀ p, v = .ptr p → log = nodes)
    : Lands sh nodes log [.ret spec v]

-----------------------------------------------------------------------------------------
-- Steps of a traversal
-----------------------------------------------------------------------------------------

theorem GetStep.lands {tls tmp pc act tls' frames place}
    (step : GetStep sh tls tmp pc act tls' frames) (at' : pc.place = some place)
    (told : place.Told sh nodes log)
    : Lands sh nodes (log ++ place.visits) frames := by
  have goes {pc' place'} (at' : GetPc.place pc' = some place')
      (told : place'.Told sh nodes (log ++ place.visits))
      : Lands sh nodes (log ++ place.visits) [.get tmp pc'] :=
    .goesOn [] at' told
  cases step <;> cases at' <;>
    simp only [Place.visits, List.append_nil] at goes ⊢
  case cooling | notCooling => exact goes rfl told.enter
  case taken => exact goes (GetPc.place_at _) told.next
  case claim | link => exact .returns told.initial nofun
  all_goals exact goes rfl told

theorem Dispatch.lands {c p since loc h frames} (step : Dispatch c p since loc h frames)
    (told : (Place.inside h.who).Told sh nodes log)
    : Lands sh nodes log frames := by
  cases step with
  | active | slots => exact .goesOn [] rfl told
  | invalid => exact .goesOn [_] rfl told.initial

theorem PayStep.lands {cfg tls c p since loc pc act frames place}
    (step : PayStep cfg sh tls c p since loc pc act frames) (at' : pc.place = some place)
    (told : place.Told sh nodes log)
    : Lands sh nodes (log ++ place.visits) frames := by
  have goes (above) {loc pc' place'} (at' : PayPc.place pc' = some place')
      (told : place'.Told sh nodes (log ++ place.visits))
      : Lands sh nodes (log ++ place.visits) (above ++ [.pay c p since loc pc']) :=
    .goesOn above at' told
  cases step <;> cases at' <;>
    simp only [Place.visits, List.append_nil] at goes ⊢
  case reserve => exact goes [] rfl told.enter
  case help dispatch | again _ dispatch => exact dispatch.lands told
  case leave => exact goes [] (PayPc.place_at _) told.next
  case noNode | helpPanic | helpMyself | envelopeTag => exact goes [_] rfl told.initial
  case agrees => exact goes [_, _] rfl told
  case dropVal | lost | abandon => exact goes [_] rfl told
  case skip | bump =>
    refine goes [] ?_ told
    unfold PayPc.nextSlot
    split <;> rfl
  all_goals exact goes [] rfl told

theorem FrameStep.lands {cfg tls fr act tls' frames place}
    (step : FrameStep cfg sh tls fr act tls' frames) (at' : fr.place = some place)
    (told : place.Told sh nodes log)
    : Lands sh nodes (log ++ place.visits) frames := by
  cases step with
  | get step => exact step.lands at' told
  | pay step => exact step.lands at' told
  | _ => cases at'

theorem ResumeStep.lands {fr v frames place} (step : ResumeStep sh fr v frames)
    (at' : fr.place = some place) (told : place.Told sh nodes log)
    : Lands sh nodes log frames := by
  cases step with
  | payReplace =>
      cases at'
      exact .goesOn [] rfl told
  | payLost dispatch =>
      cases at'
      exact dispatch.lands told
  | payDec =>
      cases at'
      unfold finishPay
      split
      · exact .goesOn [_] rfl told
      · exact .returns told.initial fun _ _ => told
  | payCool =>
      cases at'
      exact .returns told.initial fun _ _ => told
  | payUnwindTmp =>
      cases at'
      exact .goesOn [_] rfl told
  | payUnwind =>
      cases at'
      exact .returns told nofun
  | unwind step =>
      cases step with
      | pay | payHelp =>
          cases at'
          exact .goesOn [] rfl told.initial
      | _ => cases at'
  | loadUnwind => cases at'
  | _ => cases at'

end places

-----------------------------------------------------------------------------------------
-- Traversals in a run
-----------------------------------------------------------------------------------------

theorem Frame.isBusy_of_place {fr : Frame} {place} (there : fr.place = some place)
    : fr.isBusy = true := by
  cases fr with
  | get | pay => rfl
  | _ => cases there

/-- A frame with others on top of it calls nothing. -/
theorem visit_covered {base above : List Frame} {fr : Frame} (covered : above ≠ [])
    : visit base (above ++ fr :: base) = [] := by
  cases above with
  | nil => exact absurd rfl covered
  | cons top mid =>
      refine if_neg fun eq => ?_
      have length := congrArg List.length eq
      simp at length
      omega

theorem visit_top {base : List Frame} {fr : Frame} {place} (there : fr.place = some place)
    : visit base (fr :: base) = place.visits := by
  simp [visit, there]

/-- The traversal right above the frames `base` has come to the end of the list. -/
def atEnd (base stack : List Frame) : Prop :=
  ∃ fr, stack = fr :: base ∧ fr.place = some .done

instance (base : List Frame) : DecidablePred (atEnd base)
  | [] => .isFalse nofun
  | fr :: rest =>
      decidable_of_iff (fr.place = some .done ∧ rest = base) (by simp [atEnd, and_comm])

/-- The traversal right above the frames `base` has ended and was not stopped: it is at the end
of the list, or `pay_all` has returned to the frames.
-/
def unstopped (base stack : List Frame) : Prop :=
  atEnd base stack ∨ ∃ spec p, stack = .ret spec (.ptr p) :: base

/-- A traversal of the list `nodes`, right above the frames `base`. -/
inductive Traverses (nodes : List NodeId) (base : List Frame) (log : List NodeId) (sh : Shared)
    (stack : List Frame)
    : Prop
  | runs (above) {fr place} (top : stack = above ++ fr :: base)
    (there : Frame.place fr = some place) (told : place.Told sh nodes log)
  | ended {spec v} (back : stack = .ret spec v :: base) (told : log.IsPrefix nodes)
    (whole : ∀ p, v = .ptr p → log = nodes)

theorem Lands.traverses {sh nodes log frames base} (lands : Lands sh nodes log frames)
    : Traverses nodes base log sh (frames ++ base) := by
  cases lands with
  | @goesOn above fr place there told =>
      exact .runs above (List.append_assoc above [fr] base) there told
  | returns visited whole => exact .ended rfl visited whole

theorem Traverses.initial {nodes base log sh stack} (inv : Traverses nodes base log sh stack)
    : log.IsPrefix nodes := by
  cases inv with
  | runs _ _ _ told => exact told.initial
  | ended _ told => exact told

/-- A frame right above the frames `base` is the one of the traversal. -/
theorem top_unique {base above : List Frame} {fr fr' : Frame}
    (top : fr :: base = above ++ fr' :: base)
    : fr' = fr := by
  cases above with
  | nil =>
      cases top
      rfl
  | cons top' mid =>
      have length := congrArg List.length top
      simp only [List.length_append, List.length_cons] at length
      omega

/-- At the end of the list the closure has been called for all nodes. -/
theorem Traverses.complete {nodes base log sh stack} (inv : Traverses nodes base log sh stack)
    (ended : unstopped base stack)
    : log = nodes := by
  cases inv with
  | @runs above fr place top there told =>
      rcases ended with ⟨fr', rfl, there'⟩ | ⟨spec, p, rfl⟩
      · cases top_unique top
        cases there.symm.trans there'
        exact told
      · cases top_unique top
        cases there
  | ended back _ whole =>
      subst back
      rcases ended with ⟨fr', eq, there'⟩ | ⟨spec, p, eq⟩
      · cases eq
        cases there'
      · cases eq
        exact whole p rfl

theorem Traverses.keep {nodes base log sh sh' stack} (inv : Traverses nodes base log sh stack)
    (grows : sh.Extends sh') (linked : ∀ n ∈ nodes, sh.linked n = true)
    : Traverses nodes base log sh' stack := by
  cases inv with
  | runs _ top there told => exact .runs _ top there (told.keep grows linked)
  | ended back told whole => exact .ended back told whole

section runs

variable {cfg : Config} {ok : State → Label → Prop} {s s' : State} {l : Label} {t : ThreadId}
  {base : List Frame} {nodes log : List NodeId}

/-- A step of any thread leaves a traversal where it is or takes it further. -/
theorem Traverses.step (inv : Traverses nodes base log s.sh (s.thr t).stack)
    (grows : s.sh.Extends s'.sh) (linked : ∀ n ∈ nodes, s.sh.linked n = true)
    (inside : l.thread = t → ¬ returned base (s.thr t).stack)
    (taken : ArcSwap.step cfg s l = some s')
    : Traverses nodes base (log ++ visited t base s l s') s'.sh (s'.thr t).stack := by
  cases inv with
  | ended back told whole =>
      have other : l.thread ≠ t := fun eq => inside eq ⟨_, _, back⟩
      rw [visited, if_neg other, List.append_nil, step_others taken other.symm]
      exact .ended back told whole
  | @runs above fr place top there told =>
      cases step_follows taken top (Frame.isBusy_of_place there) with
      | waits top' covered =>
          have quiet : visited t base s l s' = [] := by
            unfold visited
            split
            · rw [top]
              exact visit_covered (covered ‹_›).1
            · rfl
          rw [quiet, List.append_nil]
          exact .runs _ top' there (told.keep grows linked)
      | moves thread empty step _ top' =>
          rw [visited, if_pos thread, top, empty, List.nil_append, visit_top there, top']
          exact (step.lands there told).traverses.keep grows linked
      | answered thread ret step _ top' =>
          rw [visited, if_pos thread, top, visit_covered (by simp [ret]), List.append_nil, top']
          exact (step.lands there told).traverses.keep grows linked

/-- The first step of a traversal, which reads the head of the list. -/
inductive HeadRead (base : List Frame) (s s₁ : State) (t : ThreadId) : Frame → Prop
  | get {tmp} (after : s₁.sh = s.sh.after .nop)
    (top : (s₁.thr t).stack = .get tmp (.at s.sh.head) :: base)
    : HeadRead base s s₁ t (.get tmp .head)
  | pay {c p since loc} (after : s₁.sh = s.sh.after .nop)
    (top : (s₁.thr t).stack = .pay c p since loc (.at s.sh.head) :: base)
    : HeadRead base s s₁ t (.pay c p since loc .head)

theorem step_headRead {fr s₁} (thread : l.thread = t) (top : (s.thr t).stack = fr :: base)
    (reads : fr.readsHead = true) (taken : ArcSwap.step cfg s l = some s₁)
    : HeadRead base s s₁ t fr := by
  have busy : fr.isBusy = true := by
    cases fr with
    | get | pay => rfl
    | _ => cases reads
  cases step_follows taken (above_nil top) busy with
  | waits _ covered => exact absurd rfl (covered thread).1
  | answered _ ret => cases ret
  | moves _ _ step after top' =>
      cases step with
      | get step =>
          cases step with
          | head => exact .get after top'
          | _ => cases reads
      | pay step =>
          cases step with
          | head => exact .pay after top'
          | _ => cases reads
      | _ => cases reads

theorem Traverses.start {fr s₁} (first : HeadRead base s s₁ t fr) (listed : s.sh.Listed nodes)
    : Traverses nodes base [] s₁.sh (s₁.thr t).stack := by
  have told : (Place.at s.sh.head).Told s.sh ([] ++ nodes) [] := .at listed.chain
  cases first with
  | get after top =>
      rw [after]
      exact .runs [] top (GetPc.place_at _) told
  | pay after top =>
      rw [after]
      exact .runs [] top (PayPc.place_at _) told

/-- The part of a run in which a traversal goes on. -/
theorem Traverses.within {n s₁ fr}
    (reached : Reaches (ArcSwap.step cfg) ok (State.init n) s) (thread : l.thread = t)
    (top : (s.thr t).stack = fr :: base) (reads : fr.readsHead = true) (allowed : ok s l)
    (taken : ArcSwap.step cfg s l = some s₁) (listed : s.sh.Listed nodes)
    (run : Within cfg ok t (returned base) (visited t base) s₁ log s')
    : Traverses nodes base log s'.sh (s'.thr t).stack := by
  refine run.invariant (I := fun log s' => Traverses nodes base log s'.sh (s'.thr t).stack)
    (.start (step_headRead thread top reads taken) listed) ?_
  intro log s₂ l₂ s₃ between inv inside _ taken'
  have now : Reaches (ArcSwap.step cfg) ok s s₂ :=
    Reaches.trans (.step .start allowed taken) between
  obtain ⟨newer, there⟩ := listed.grows reached now
  refine inv.step ((poolOk_of_reaches (reached.trans now)).grows taken') ?_ inside taken'
  exact fun m member => (there.linked m).mp (List.mem_append_right newer member)

end runs

-----------------------------------------------------------------------------------------
-- The traversal of Node::get
-----------------------------------------------------------------------------------------

/-- The steps that the closure in `Node::get` still makes at most for the node it works on. -/
def GetPc.rank : GetPc → Nat
  | .checkWriters _ => 3
  | .release _ _ => 2
  | .claim _ => 1
  | .head | .checkUse _ | .fresh | .link _ _ => 0

theorem GetPc.rank_at (o : Option NodeId) : (GetPc.at o).rank = 0 := by
  cases o <;> rfl

/-- The traversal of `Node::get` is over. -/
def searched (base stack : List Frame) : Prop :=
  returned base stack ∨ atEnd base stack

instance (base : List Frame) : DecidablePred (searched base) :=
  fun stack => inferInstanceAs (Decidable (returned base stack ∨ atEnd base stack))

/-- The steps of thread `t`. -/
def ownSteps (t : ThreadId) (_ : State) (l : Label) (_ : State) : List Label :=
  if l.thread = t then [l] else []

/-- A traversal of `Node::get` right above the frames `base` that has called its closure for
`nodes` nodes. It makes 4 steps at most for each of them.
-/
inductive Searches (base : List Frame) (moves nodes : Nat) (stack : List Frame) : Prop
  | runs {tmp pc place} (top : stack = .get tmp pc :: base) (there : pc.place = some place)
    (spent : moves + pc.rank ≤ 4 * nodes)
  | ended (back : returned base stack) (spent : moves ≤ 4 * nodes)

theorem Searches.le {base moves nodes stack} (searches : Searches base moves nodes stack)
    : moves ≤ 4 * nodes := by
  cases searches with
  | runs _ _ spent => exact Nat.le_of_add_right_le spent
  | ended _ spent => exact spent

theorem Searches.at {base moves nodes stack tmp o} (top : stack = .get tmp (.at o) :: base)
    (spent : moves ≤ 4 * nodes)
    : Searches base moves nodes stack :=
  .runs top (GetPc.place_at o) (by rwa [GetPc.rank_at])

theorem GetStep.searches {sh tls tmp pc act tls' frames base place moves nodes}
    (step : GetStep sh tls tmp pc act tls' frames) (there : pc.place = some place)
    (inside : pc.place ≠ some .done) (spent : moves + pc.rank ≤ 4 * nodes)
    : Searches base (moves + 1) (nodes + place.visits.length) (frames ++ base) := by
  have goes {pc' place'} (there' : GetPc.place pc' = some place')
      (spent' : moves + 1 + pc'.rank ≤ 4 * (nodes + place.visits.length))
      : Searches base (moves + 1) (nodes + place.visits.length) ([.get tmp pc'] ++ base) :=
    .runs rfl there' spent'
  cases step <;> cases there
  case fresh | link | retry => exact absurd rfl inside
  case taken => exact .at rfl spent
  case claim => exact .ended ⟨_, _, rfl⟩ spent
  all_goals
    refine goes rfl ?_
    simp only [GetPc.rank, Place.visits, List.length_singleton, List.length_nil] at spent ⊢
    omega

section search

variable {cfg : Config} {ok : State → Label → Prop} {s s' s₁ : State} {l : Label}
  {t : ThreadId} {base : List Frame}

/-- A step of any thread until the traversal is over. -/
theorem Searches.step {moves nodes} (searches : Searches base moves nodes (s.thr t).stack)
    (inside : l.thread = t → ¬ searched base (s.thr t).stack)
    (taken : ArcSwap.step cfg s l = some s')
    : Searches base (moves + (ownSteps t s l s').length)
        (nodes + (visited t base s l s').length) (s'.thr t).stack := by
  by_cases thread : l.thread = t
  · have own : ownSteps t s l s' = [l] := if_pos thread
    rw [own, visited, if_pos thread]
    cases searches with
    | ended back => exact absurd (.inl back) (inside thread)
    | @runs tmp pc place top there spent =>
        have goesOn : pc.place ≠ some .done := fun done => inside thread (.inr ⟨_, top, done⟩)
        cases step_follows taken (above_nil top) rfl with
        | waits _ covered => exact absurd rfl (covered thread).1
        | answered _ ret => cases ret
        | moves _ _ step _ top' =>
            have there' : (Frame.get tmp pc).place = some place := there
            rw [top', top, visit_top there']
            cases step with
            | get step => exact step.searches there goesOn spent
  · have own : ownSteps t s l s' = [] := if_neg thread
    have quiet : visited t base s l s' = [] := if_neg thread
    rw [step_others taken (Ne.symm thread), own, quiet]
    exact searches

/-- The traversal of `Node::get` makes 4 steps at most for each node of the list. -/
theorem Searches.within {n tmp nodes log}
    (reached : Reaches (ArcSwap.step cfg) ok (State.init n) s) (thread : l.thread = t)
    (top : (s.thr t).stack = .get tmp .head :: base) (allowed : ok s l)
    (taken : ArcSwap.step cfg s l = some s₁) (listed : s.sh.Listed nodes)
    (run : Within cfg ok t (searched base) (ownSteps t) s₁ log s')
    : ∃ calls, calls ≤ nodes.length ∧ Searches base log.length calls (s'.thr t).stack := by
  -- The closure calls of the traversal are followed beside its steps.
  obtain ⟨calls, run', searches⟩
      : ∃ calls, Within cfg ok t (returned base) (visited t base) s₁ calls s'
          ∧ Searches base log.length calls.length (s'.thr t).stack := by
    refine run.invariant
      (I := fun log s' => ∃ calls, Within cfg ok t (returned base) (visited t base) s₁ calls s'
        ∧ Searches base log.length calls.length (s'.thr t).stack) ⟨[], .start, ?_⟩ ?_
    · cases step_headRead thread top rfl taken with
      | get _ top' => exact .at top' (Nat.zero_le _)
    · intro log s₂ l₂ s₃ _ inv inside allowed' taken'
      obtain ⟨calls, run', searches⟩ := inv
      refine ⟨_, run'.step (fun eq back => inside eq (.inl back)) allowed' taken', ?_⟩
      rw [List.length_append, List.length_append]
      exact searches.step inside taken'
  have inv := Traverses.within reached thread top rfl allowed taken listed run'
  exact ⟨_, inv.initial.length_le, searches⟩

/-- Nothing keeps a thread from the next step of `Node::get`. -/
theorem Searches.goesOn {moves nodes} (searches : Searches base moves nodes (s.thr t).stack)
    (member : t < s.nThr) (inside : ¬ searched base (s.thr t).stack) (spurious : Bool)
    : ∃ s', ArcSwap.step cfg s (.run t spurious) = some s' := by
  cases searches with
  | ended back => exact absurd (.inl back) inside
  | runs top => exact ⟨_, by simp [ArcSwap.step, member, State.run, top, stepFrame]; rfl⟩

end search

/-- Where a frame is, seen from the list. -/
theorem State.PoolOk.returned_linked {s : State} {t spec m tmp rest} (ok : s.PoolOk)
    (member : t < s.nThr) (top : (s.thr t).stack = .ret spec (.node m tmp) :: rest)
    : s.sh.linked m = true := by
  refine ok.pool.ownedLinked m ?_
  cases tmp with
  | false =>
      have node : (s.thr t).tls.node = some m := (ok.disciplined t).knows _ _ top
      exact s.mem_shares_of_tls member (by simp [holdShare, node])
  | true =>
      have inside : .ret spec (.node m true) ∈ (s.thr t).stack := by simp [top]
      refine s.mem_shares_of_frame member inside ?_
      simp [holdShare, Frame.holds, Ret.holds]

theorem State.PoolOk.fresh_unlinked {s : State} {t tmp m head rest} (ok : s.PoolOk)
    (member : t < s.nThr) (top : (s.thr t).stack = .get tmp (.link m head) :: rest)
    : s.sh.linked m = false := by
  have inside : .get tmp (.link m head) ∈ (s.thr t).stack := by simp [top]
  refine (ok.pool.freshNew m (s.mem_shares_of_frame member inside ?_)).1
  simp [holdShare, Frame.holds, GetPc.holds]

end ArcSwap
