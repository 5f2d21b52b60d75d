import ArcSwap.Proofs.Operations

/-! `compare_and_swap` and `rcu`. A call of `compare_and_swap` writes once or not at all, and its
result says which. A call of `rcu` writes once, when it returns, over the object that its closure
was called with last, and it calls its closure again only after somebody else has written.
-/

namespace ArcSwap

open Bags GuardedRuns Registers

-----------------------------------------------------------------------------------------
-- What frames know about their operation
-----------------------------------------------------------------------------------------

/-- The protection comes from a load of the storage that was called at `since` or later. -/
def Prot.LoadedSince (g : Prot) (c : CellId) (since : Nat) : Prop :=
  ∃ src, g.src = some src ∧ src.cell = c ∧ since ≤ src.began

/-- The storage held the pointer of the protection at an instant of its load. Since the call of
`op` others had written by then at least as often as the closure was called again.
-/
structure Shared.Retried (sh : Shared) (c : CellId) (op calls : Nat) (g : Prot)
    (src : Src) (t : Nat)
    : Prop where
  cell : c < sh.nCells
  source : g.src = some src
  loaded : src.cell = c
  since : op ≤ src.began
  began : src.began ≤ t
  ended : t ≤ src.ended
  past : src.ended ≤ sh.time
  held : g.ptr.addr = (sh.heldAt c t).addr
  paid : calls ≤ sh.foreign c op t + 1

/-- The results of the closure of an operation. -/
abbrev Results := Nat → Ptr → Ptr → Prop

def Spec.Tracks (sh : Shared) : Spec → Ret → Prop
  | .swapped c op cur new, .prot g =>
      g.LoadedSince c op
        ∧ (g.ptr.addr = cur ∧ sh.WroteFor c op g.ptr new
          ∨ g.ptr.addr ≠ cur ∧ sh.Wrote c op [])
  | .value p, .ptr q => q = p
  | _, _ => True

def CasPc.Tracks (sh : Shared) (c op cur : Nat) (new : Ptr) : CasPc → Prop
  | .loadWait began => op ≤ began ∧ sh.Wrote c op []
  | .exchange old => old.LoadedSince c op ∧ sh.Wrote c op []
  | .retryWait => sh.Wrote c op []
  | .payWait old | .decWait old =>
      old.LoadedSince c op ∧ old.ptr.addr = cur ∧ sh.WroteFor c op old.ptr new
  | .rejectWait old => old.LoadedSince c op ∧ old.ptr.addr ≠ cur ∧ sh.Wrote c op []
  | .unwind => True

def RcuPc.Tracks (P : Results) (sh : Shared) (c op : Nat) : RcuPc → Prop
  | .loadWait began => op ≤ began ∧ sh.Wrote c op []
  | .closureWait cur calls => (∃ src t, sh.Retried c op calls cur src t) ∧ sh.Wrote c op []
  | .casWait cur new calls => (∃ src t, sh.Retried c op calls cur src t) ∧ P op cur.ptr new
  | .intoWait cur prev calls =>
      prev.Alike cur.ptr ∧ (∃ new, sh.WroteFor c op cur.ptr new ∧ P op cur.ptr new)
        ∧ calls ≤ sh.foreign c op sh.time + 1
  | .doneWait r calls =>
      (∃ p new, r.Alike p ∧ sh.WroteFor c op p new ∧ P op p new)
        ∧ calls ≤ sh.foreign c op sh.time + 1
  | .againWait prev calls =>
      (∃ src t, sh.Retried c op (calls + 1) prev src t) ∧ sh.Wrote c op []
  | .unwindWait => sh.Wrote c op []

def Frame.Tracks (P : Results) (sh : Shared) : Frame → Prop
  | .ret spec v => spec.Tracks sh v
  | .into g spec _ => spec.Tracks sh (.ptr g.ptr)
  | .swap c op _ => sh.Wrote c op []
  | .cas c op cur new pc => pc.Tracks sh c op cur new
  | .rcu c op pc => pc.Tracks P sh c op
  | _ => True

section tracks

variable {P : Results} {sh : Shared} {act : Act} {c : CellId} {op calls : Nat}

/-- What has been held stays on record, and so do the writes that pay for it. -/
theorem Shared.Retried.after {g src t} (retried : sh.Retried c op calls g src t) (act : Act)
    : (sh.after act).Retried c op calls g src t := by
  have past : t ≤ sh.time := Nat.le_trans retried.ended retried.past
  exact {
    cell := Nat.lt_of_lt_of_le retried.cell (act.nCells_le sh)
    source := retried.source
    loaded := retried.loaded
    since := retried.since
    began := retried.began
    ended := retried.ended
    past := Nat.le_succ_of_le retried.past
    held := by
      rw [sh.heldAt_after act retried.cell past]
      exact retried.held
    paid := by
      rw [Shared.foreign_after act retried.cell past]
      exact retried.paid
  }

theorem Shared.foreign_later (act : Act) (cell : c < sh.nCells)
    (paid : calls ≤ sh.foreign c op sh.time + 1)
    : calls ≤ (sh.after act).foreign c op (sh.after act).time + 1 := by
  have kept : (sh.after act).foreign c op sh.time = sh.foreign c op sh.time :=
    Shared.foreign_after act cell (Nat.le_refl sh.time)
  have later
      : (sh.after act).foreign c op sh.time ≤ (sh.after act).foreign c op (sh.after act).time :=
    Shared.foreign_mono (Nat.le_succ _)
  omega

/-- Only the operation itself changes what its frame knows. -/
theorem Frame.Tracks.after {fr : Frame} (tracks : fr.Tracks P sh)
    (other : ∀ op ∈ fr.ops, ∀ e q, act ≠ .write e op q)
    : fr.Tracks P (sh.after act) := by
  cases fr with
  | ret spec v =>
      cases spec with
      | swapped c op cur new =>
          cases v with
          | prot g =>
              have alone := other op (Multiset.mem_singleton_self _)
              obtain ⟨loaded, outcome⟩ := tracks
              refine ⟨loaded, outcome.imp ?_ ?_⟩
              · exact fun ⟨same, wrote⟩ => ⟨same, wrote.after alone⟩
              · exact fun ⟨differs, wrote⟩ => ⟨differs, wrote.after alone⟩
          | _ => trivial
      | value => cases v <;> exact tracks
      | _ => trivial
  | into g spec pc => cases spec <;> exact tracks
  | swap c op new => exact Shared.Wrote.after tracks (other op (Multiset.mem_singleton_self _))
  | cas c op cur new pc =>
      have alone := other op (Multiset.mem_singleton_self _)
      cases pc with
      | loadWait | exchange => exact ⟨tracks.1, tracks.2.after alone⟩
      | retryWait => exact Shared.Wrote.after tracks alone
      | payWait | decWait | rejectWait => exact ⟨tracks.1, tracks.2.1, tracks.2.2.after alone⟩
      | unwind => trivial
  | rcu c op pc =>
      cases pc with
      | casWait cur new calls =>
          obtain ⟨⟨src, t, retried⟩, result⟩ := tracks
          exact ⟨⟨src, t, retried.after act⟩, result⟩
      | loadWait => exact ⟨tracks.1, tracks.2.after (other op (Multiset.mem_singleton_self _))⟩
      | closureWait | againWait =>
          obtain ⟨⟨src, t, retried⟩, wrote⟩ := tracks
          exact ⟨⟨src, t, retried.after act⟩,
            wrote.after (other op (Multiset.mem_singleton_self _))⟩
      | intoWait cur prev calls =>
          obtain ⟨alike, ⟨new, wrote, result⟩, paid⟩ := tracks
          have kept := wrote.after (other op (Multiset.mem_singleton_self _))
          obtain ⟨m, wrote, _⟩ := wrote
          exact ⟨alike, ⟨new, kept, result⟩, Shared.foreign_later act wrote.cell paid⟩
      | doneWait r calls =>
          obtain ⟨⟨p, new, alike, wrote, result⟩, paid⟩ := tracks
          have kept := wrote.after (other op (Multiset.mem_singleton_self _))
          obtain ⟨m, wrote, _⟩ := wrote
          exact ⟨⟨p, new, alike, kept, result⟩, Shared.foreign_later act wrote.cell paid⟩
      | unwindWait => exact Shared.Wrote.after tracks (other op (Multiset.mem_singleton_self _))
  | _ => trivial

end tracks

-----------------------------------------------------------------------------------------
-- What an rcu waits for
-----------------------------------------------------------------------------------------

/-- The frame is the closure of an operation, called with `p`, or its result. -/
def Frame.Answers (P : Results) (op : Nat) (p : Ptr) : Frame → Prop
  | .closure q => q = p
  | .ret _ (.ptr q) => P op p q
  | .ret _ .unwound => True
  | _ => False

def Prot.LoadedAfter (g : Prot) (time : Nat) : Prop :=
  ∃ src, g.src = some src ∧ time ≤ src.began

/-- A `compare_and_swap` has not called the load of its protection before `time`. -/
def Frame.LoadsAfter (time : Nat) : Frame → Prop
  | .cas _ _ _ _ (.loadWait began) => time ≤ began
  | .cas _ _ _ _ (.exchange old) | .cas _ _ _ _ (.payWait old) | .cas _ _ _ _ (.decWait old)
  | .cas _ _ _ _ (.rejectWait old) | .ret (.swapped _ _ _ _) (.prot old) => old.LoadedAfter time
  | _ => True

/-- An `rcu` gets a result of its closure, and what its `compare_and_swap` has loaded after its
own protection.
-/
def Frame.Over (P : Results) (now : Nat) (fr : Frame) : List Frame → Prop
  | .rcu _ op (.closureWait cur _) :: _ => fr.Answers P op cur.ptr
  | .rcu _ _ (.casWait cur _ _) :: _ =>
      ∀ src, cur.src = some src → src.ended ≤ now ∧ fr.LoadsAfter src.ended
  | _ => True

def StackOver (P : Results) (now : Nat) : List Frame → Prop
  | [] => True
  | fr :: rest => fr.Over P now rest ∧ StackOver P now rest

/-- The frame is not an `rcu` that waits for its closure or its `compare_and_swap`. -/
def Frame.Open : Frame → Prop
  | .rcu _ _ (.closureWait _ _) | .rcu _ _ (.casWait _ _ _) => False
  | _ => True

section outer

variable {P : Results} {cfg : Config} {s : State} {t : ThreadId} {tls : Tls} {δ : Change}
  {rest : List Frame} {sh : Shared} {c began now : Nat} {loc : Loc}

theorem StackOver.later {now' : Nat} {stack : List Frame} (outer : StackOver P now stack)
    (le : now ≤ now')
    : StackOver P now' stack := by
  induction stack with
  | nil => trivial
  | cons fr rest ih =>
      obtain ⟨head, tail⟩ := outer
      refine ⟨?_, ih tail⟩
      unfold Frame.Over at head ⊢
      split at head
      · exact head
      · intro src source
        obtain ⟨past, loads⟩ := head src source
        exact ⟨Nat.le_trans past le, loads⟩
      · trivial

theorem Frame.Open.outer {fr : Frame} (opened : fr.Open) {above : Frame} {rest}
    : above.Over P now (fr :: rest) := by
  unfold Frame.Over
  split <;> rename_i eq
  · cases eq
    exact opened.elim
  · cases eq
    exact opened.elim
  · trivial

/-- A frame that is no answer of a closure can be replaced by frames that have loaded no earlier
for a `compare_and_swap`.
-/
theorem Frame.Over.replace {fr : Frame} {new : List Frame} (outer : fr.Over P now rest)
    (silent : ∀ op p, ¬ fr.Answers P op p)
    (loads : ∀ time ≤ now, fr.LoadsAfter time → new.Forall (Frame.LoadsAfter time))
    : new.Forall fun fr' => fr'.Over P now rest := by
  apply List.forall_iff_forall_mem.mpr
  intro fr' inside
  unfold Frame.Over at outer ⊢
  split at outer
  · exact absurd outer (silent _ _)
  · intro src source
    obtain ⟨past, after⟩ := outer src source
    exact ⟨past, List.forall_iff_forall_mem.mp (loads _ past after) fr' inside⟩
  · trivial

theorem StackOver.push {new : List Frame} (opened : new.Forall Frame.Open)
    (outer : new.Forall fun fr => fr.Over P now rest) (below : StackOver P now rest)
    : StackOver P now (new ++ rest) := by
  induction new with
  | nil => exact below
  | cons fr others ih =>
      rw [List.forall_cons] at opened outer
      refine ⟨?_, ih opened.2 outer.2⟩
      cases others with
      | nil => exact outer.1
      | cons next others =>
          rw [List.forall_cons] at opened
          exact opened.2.1.outer

theorem finishLoad_open {now g} : (finishLoad c began now loc g).Forall Frame.Open := by
  cases loc with
  | tls => trivial
  | tmp node => cases node <;> trivial

theorem FrameStep.opened {fr act tls' frames} (step : FrameStep cfg sh tls fr act tls' frames)
    : frames.Forall Frame.Open := by
  cases step with
  | load step =>
      cases step with
      | confirmed | alreadyPaid | ownPaid | unusedPaid => exact finishLoad_open
      | _ => trivial
  | pay step =>
      cases step with
      | help _ dispatch | again _ dispatch => cases dispatch <;> trivial
      | _ => trivial
  | into step => cases step <;> trivial
  | get step => cases step <;> trivial
  | cool step => cases step <;> trivial
  | dec step => cases step <;> trivial
  | guardDrop step => cases step <;> trivial
  | _ => trivial

theorem finishLoad_loads {now g time}
    : (finishLoad c began now loc g).Forall (Frame.LoadsAfter time) := by
  cases loc with
  | tls => trivial
  | tmp node => cases node <;> trivial

theorem FrameStep.silent {fr act tls' frames} (step : FrameStep cfg sh tls fr act tls' frames)
    (op : Nat) (p : Ptr)
    : ¬ fr.Answers P op p := by
  cases step <;> exact id

theorem FrameStep.loads {fr act tls' frames} (step : FrameStep cfg sh tls fr act tls' frames) {time}
    (after : fr.LoadsAfter time)
    : frames.Forall (Frame.LoadsAfter time) := by
  cases step with
  | load step =>
      cases step with
      | confirmed | alreadyPaid | ownPaid | unusedPaid => exact finishLoad_loads
      | _ => trivial
  | pay step =>
      cases step with
      | help _ dispatch | again _ dispatch => cases dispatch <;> trivial
      | _ => trivial
  | @into g spec pc _ _ step => cases step <;> cases spec <;> trivial
  | get step => cases step <;> trivial
  | cool step => cases step <;> trivial
  | dec step => cases step <;> trivial
  | guardDrop step => cases step <;> trivial
  | casExchange => exact ⟨trivial, after⟩
  | _ => trivial

theorem FrameStep.outer {fr act tls' frames} (step : FrameStep cfg sh tls fr act tls' frames)
    (outer : StackOver P now (fr :: rest))
    : StackOver P now (frames ++ rest) :=
  StackOver.push step.opened
    (Frame.Over.replace outer.1 step.silent fun _ _ after => step.loads after) outer.2

theorem ResumeStep.silent {caller v frames} (step : ResumeStep sh caller v frames) (op : Nat)
    (p : Ptr)
    : ¬ caller.Answers P op p := by
  cases step with
  | unwind step => cases step <;> exact id
  | _ => exact id

/-- A `compare_and_swap` that tries again loads again. -/
theorem ResumeStep.loads {spec caller v frames} (step : ResumeStep sh caller v frames)
    (accepts : caller.accepts (v.answer spec)) (sourced : spec.Sourced SameAddr sh v) {time}
    (le : time ≤ sh.time) (after : caller.LoadsAfter time)
    : frames.Forall (Frame.LoadsAfter time) := by
  have loaded {c began old} (accepts : (CasPc.loadWait began).accepts c (.prot spec))
      (sourced : spec.Sourced SameAddr sh (.prot old)) (after : time ≤ began)
      : old.LoadedAfter time := by
    rcases accepts with eq | eq <;> cases eq
    obtain ⟨ended, source, _⟩ := sourced
    exact ⟨_, source, after⟩
  cases step with
  | loadDec => exact finishLoad_loads
  | payLost dispatch => cases dispatch <;> trivial
  | @payDec c p since loc =>
      cases loc with
      | tls => trivial
      | tmp node => cases node <;> trivial
  | loadUnwind step | unwind step => cases step <;> trivial
  | @into g spec => cases spec <;> trivial
  | casReject => exact ⟨trivial, loaded accepts sourced after⟩
  | casTry => exact loaded accepts sourced after
  | casRetry => exact ⟨trivial, le⟩
  | casPaid => exact ⟨trivial, after⟩
  | casDone | casRejected => exact after
  | _ => trivial

theorem ResumeStep.outer {spec caller v frames} (step : ResumeStep sh caller v frames)
    (accepts : caller.accepts (v.answer spec)) (sourced : spec.Sourced SameAddr sh v)
    (tracks : caller.Tracks P sh) (outer : StackOver P sh.time (.ret spec v :: caller :: rest))
    : StackOver P sh.time (frames ++ rest) := by
  have any (fr : Frame) (loads : ∀ time, [fr].Forall (Frame.LoadsAfter time))
      : fr.Over P sh.time rest := by
    have outer := Frame.Over.replace outer.2.1 step.silent fun time _ _ => loads time
    exact outer
  have push (opened : frames.Forall Frame.Open) : StackOver P sh.time (frames ++ rest) :=
    StackOver.push opened
      (Frame.Over.replace outer.2.1 step.silent fun time le after =>
        step.loads accepts sourced le after)
      outer.2.2
  cases step with
  | loadDec => exact push finishLoad_open
  | payLost dispatch => cases dispatch <;> exact push (by trivial)
  | @payDec c p since loc =>
      cases loc with
      | tls => exact push (by trivial)
      | tmp node => cases node <;> exact push (by trivial)
  | loadUnwind step | unwind step => cases step <;> exact push (by trivial)
  | rcuLoad | rcuAgain => exact ⟨rfl, any _ fun _ => trivial, outer.2.2⟩
  | rcuTry =>
      obtain ⟨⟨src, t, retried⟩, _⟩ := tracks
      refine ⟨trivial, ?_, any _ fun _ => trivial, outer.2.2⟩
      intro src' source
      rw [retried.source] at source
      cases source
      exact ⟨retried.past, retried.past⟩
  | _ => exact push (by trivial)

theorem belowUser.outer (below : belowUser rest) (fr : Frame) : fr.Over P now rest := by
  unfold Frame.Over
  split
  · cases below
  · cases below
  · trivial

/-- A closure gives a result. -/
theorem CallStep.outer (step : CallStep s tls rest δ) (below : δ.old = [] → belowUser rest)
    (results
      : ∀ p q op c cur calls others, δ.old = [.closure p] → δ.new = [.ret .plain (.ptr q)]
        → rest = .rcu c op (.closureWait cur calls) :: others → P op p q)
    (outer : StackOver P now (δ.old ++ rest))
    : StackOver P now (δ.new ++ rest) := by
  have push (none : δ.old = []) (opened : δ.new.Forall Frame.Open)
      : StackOver P now (δ.new ++ rest) := by
    rw [none] at outer
    refine StackOver.push opened ?_ outer
    exact List.forall_iff_forall_mem.mpr fun fr _ => (below none).outer fr
  cases step with
  | start _ entry | startWith _ _ _ entry => cases entry <;> exact push rfl (by trivial)
  | @closureRet v p q =>
      refine ⟨?_, outer.2⟩
      have head := outer.1
      unfold Frame.Over at head ⊢
      split at head
      · rename_i c op cur calls others eq
        have same : p = cur.ptr := head
        exact same ▸ results p q op c cur calls others rfl rfl eq
      · intro src source
        exact ⟨(head src source).1, trivial⟩
      · trivial
  | closurePanic =>
      refine ⟨?_, outer.2⟩
      have head := outer.1
      unfold Frame.Over at head ⊢
      split at head
      · trivial
      · intro src source
        exact ⟨(head src source).1, trivial⟩
      · trivial
  | destructorRet =>
      refine ⟨?_, outer.2⟩
      have head := outer.1
      unfold Frame.Over at head ⊢
      split at head
      · exact head.elim
      · intro src source
        exact ⟨(head src source).1, trivial⟩
      · trivial
  | exit =>
      refine push rfl ?_
      cases node : tls.node <;> trivial
  | _ => exact push rfl (by trivial)

end outer

-----------------------------------------------------------------------------------------
-- One step
-----------------------------------------------------------------------------------------

section step

variable {P : Results} {cfg : Config} {s : State} {t : ThreadId} {tls : Tls} {δ : Change}
  {rest : List Frame} {sh : Shared} {c began : Nat} {loc : Loc}

theorem finishLoad_tracks {now g} : (finishLoad c began now loc g).Forall (Frame.Tracks P sh) := by
  cases loc with
  | tls => trivial
  | tmp node => cases node <;> trivial

/-- A frame that does not write keeps what it knows. -/
theorem FrameStep.tracks {fr act tls' frames} (step : FrameStep cfg sh tls fr act tls' frames)
    (quiet : ∀ e op q, act ≠ .write e op q) (tracks : fr.Tracks P sh)
    : frames.Forall (Frame.Tracks P sh) := by
  cases step with
  | load step =>
      cases step with
      | confirmed | alreadyPaid | ownPaid | unusedPaid => exact finishLoad_tracks
      | _ => trivial
  | pay step =>
      cases step with
      | help _ dispatch | again _ dispatch => cases dispatch <;> trivial
      | dropVal => trivial
      | _ => trivial
  | into step =>
      cases step with
      | wasPaid => exact ⟨trivial, tracks⟩
      | _ => exact tracks
  | get step => cases step <;> trivial
  | cool step => cases step <;> trivial
  | dec step => cases step <;> trivial
  | guardDrop step => cases step <;> trivial
  | swap | casExchange => exact absurd rfl (quiet _ _ _)
  | casRetry => exact ⟨trivial, tracks.2⟩
  | _ => trivial

/-- The load of a protection was called when its caller says. -/
theorem Prot.LoadedSince.of_load {spec : Spec} {g : Prot} {since}
    (accepts : Answer.is (.prot (.load c began)) (.prot spec))
    (sourced : spec.Sourced SameAddr sh (.prot g)) (le : since ≤ began)
    : g.LoadedSince c since := by
  rcases accepts with eq | eq <;> cases eq
  obtain ⟨ended, source, _⟩ := sourced
  exact ⟨_, source, rfl, le⟩

/-- The first call of the closure is paid by nobody. -/
theorem Shared.Retried.first {spec : Spec} {g : Prot} {op}
    (accepts : Answer.is (.prot (.load c began)) (.prot spec))
    (sourced : spec.Sourced SameAddr sh (.prot g)) (le : op ≤ began)
    : ∃ src t, sh.Retried c op 1 g src t := by
  rcases accepts with eq | eq <;> cases eq
  obtain ⟨ended, source, held⟩ := sourced
  obtain ⟨cell, past, t, after, before, same⟩ := held
  exact ⟨_, t, {
    cell := cell
    source := source
    loaded := rfl
    since := le
    began := after
    ended := before
    past := past
    held := same
    paid := Nat.le_add_left 1 _
  }⟩

/-- A protection that was loaded later and has another pointer is paid by one more write. -/
theorem Shared.Retried.again {op calls cur src t} {g : Prot}
    (retried : sh.Retried c op calls cur src t) (none : sh.Wrote c op [])
    (loaded : g.LoadedSince c op) (after : g.LoadedAfter src.ended)
    (sourced : g.Sourced SameAddr sh) (other : cur.ptr.addr ≠ g.ptr.addr)
    : ∃ src' t', sh.Retried c op (calls + 1) g src' t' := by
  obtain ⟨src', source, cell, since⟩ := loaded
  obtain ⟨_, source', later⟩ := after
  rw [source] at source'
  cases source'
  obtain ⟨_, past, t', began, ended, same⟩ := sourced src' source
  rw [cell] at same
  have began' := retried.began
  have ended' := retried.ended
  have since' := retried.since
  have le : t ≤ t' := by omega
  have differs
      : valueAt (sh.ptr c) t ((sh.commits c).map Commit.write)
        ≠ valueAt (sh.ptr c) t' ((sh.commits c).map Commit.write) := by
    intro eq
    have eq : sh.heldAt c t = sh.heldAt c t' := eq
    exact other (retried.held.trans (eq ▸ same.symm))
  obtain ⟨w, inside, late, written⟩ := exists_write_of_ne le differs
  obtain ⟨m, there, rfl⟩ := List.mem_map.mp inside
  have foreign : m.op ≠ op := by
    rintro rfl
    have own : m ∈ sh.writes c m.op := List.mem_filter.mpr ⟨there, by simp⟩
    rw [none.own] at own
    cases own
  have more := Shared.foreign_lt le there (Nat.le_trans since' began') late written foreign
  have paid := retried.paid
  exact ⟨src', t', {
    cell := retried.cell
    source := source
    loaded := cell
    since := since
    began := began
    ended := ended
    past := past
    held := same
    paid := by omega
  }⟩

/-- A caller knows from the answer what its operation has written. -/
theorem ResumeStep.tracks {spec caller v frames} (step : ResumeStep sh caller v frames)
    (accepts : caller.accepts (v.answer spec)) (bears : v = .unwound → caller.bears)
    (past : ∀ op ∈ caller.ops, op < sh.time) (result : spec.Tracks sh v)
    (sourced : spec.Sourced SameAddr sh v) (tracks : caller.Tracks P sh)
    (outer : StackOver P sh.time (.ret spec v :: caller :: rest))
    (alike
      : ∀ c op cur new calls prev, caller = .rcu c op (.casWait cur new calls) → v = .prot prev
        → cur.ptr.addr = prev.ptr.addr → prev.ptr.Alike cur.ptr)
    : frames.Forall (Frame.Tracks P sh) := by
  cases step with
  | loadDec => exact finishLoad_tracks
  | payLost dispatch => cases dispatch <;> trivial
  | @payDec c p since loc =>
      cases loc with
      | tls => trivial
      | tmp node => cases node <;> trivial
  | loadUnwind step => cases step <;> trivial
  | @into g spec => exact tracks
  | casReject other => exact ⟨trivial, .of_load accepts sourced tracks.1, other, tracks.2⟩
  | casTry same => exact ⟨.of_load accepts sourced tracks.1, tracks.2⟩
  | casRetry => exact ⟨trivial, Nat.le_of_lt (past _ (Multiset.mem_singleton_self _)), tracks⟩
  | casPaid => exact ⟨trivial, tracks⟩
  | casDone => exact ⟨tracks.1, .inl tracks.2⟩
  | casRejected => exact ⟨tracks.1, .inr tracks.2⟩
  | rcuLoad => exact ⟨trivial, Shared.Retried.first accepts sourced tracks.1, tracks.2⟩
  | rcuTry =>
      refine ⟨trivial, ⟨?_, tracks.2⟩, tracks.1, outer.1⟩
      exact Nat.le_of_lt (past _ (Multiset.mem_singleton_self _))
  | rcuPanic => exact ⟨trivial, tracks.2⟩
  | @rcuSwapped c op cur new calls prev same =>
      obtain ⟨⟨src, t, retried⟩, given⟩ := tracks
      have object := alike c op cur new calls prev rfl rfl same
      rcases accepts with eq | eq <;> cases eq
      obtain ⟨_, ⟨_, m, wrote, late, old, rfl⟩ | ⟨differs, _⟩⟩ := result
      · have paid : calls ≤ sh.foreign c op sh.time + 1 := by
          have mono : sh.foreign c op t ≤ sh.foreign c op sh.time :=
            Shared.foreign_mono (Nat.le_trans retried.ended retried.past)
          have paid := retried.paid
          omega
        have old : m.old.Alike cur.ptr :=
          ⟨old.addr.trans object.addr, old.prov.trans object.prov⟩
        exact ⟨rfl, object, ⟨m.new, ⟨m, wrote, late, old, rfl⟩, given⟩, paid⟩
      · exact absurd same.symm differs
  | @rcuLost c op cur new calls prev other =>
      obtain ⟨⟨src, t, retried⟩, _⟩ := tracks
      have after := (outer.1 src retried.source).2
      have guard := sourced.prot
      rcases accepts with eq | eq <;> cases eq
      obtain ⟨loaded, ⟨same, _⟩ | ⟨_, none⟩⟩ := result
      · exact absurd same.symm other
      · exact ⟨trivial, retried.again none loaded after guard other, none⟩
  | @rcuInto c op cur prev calls r =>
      cases accepts
      obtain ⟨alike, ⟨new, wrote, given⟩, paid⟩ := tracks
      have same : r = prev := result
      exact ⟨trivial, ⟨_, new, same ▸ alike, wrote, given⟩, paid⟩
  | rcuAgain => exact ⟨trivial, tracks⟩
  | unwind step =>
      cases step with
      | rcuCas =>
          rcases bears rfl with accepts | accepts
          · rcases accepts with eq | eq <;> cases eq
          · rcases accepts with eq | eq <;> cases eq
      | _ => trivial
  | _ => trivial

/-- Operations that are called now have written nothing. -/
theorem CallStep.tracks (step : CallStep s tls rest δ)
    (live : ∀ c, s.sh.status c = .live → c < s.sh.nCells)
    (recorded : ∀ d, ∀ m ∈ s.sh.commits d, m.op < s.sh.time)
    : δ.new.Forall (Frame.Tracks P s.sh) := by
  have fresh {c} (status : s.sh.status c = .live) : s.sh.Wrote c s.sh.time [] :=
    .fresh recorded (live c status)
  cases step with
  | start status entry =>
      cases entry with
      | rcu => exact ⟨trivial, Nat.le_refl _, fresh status⟩
      | _ => trivial
  | startWith _ _ status entry =>
      cases entry with
      | swap => exact fresh status
      | store => exact ⟨fresh status, trivial⟩
      | cas => exact ⟨trivial, Nat.le_refl _, fresh status⟩
      | cache => trivial
  | exit => cases node : tls.node <;> trivial
  | _ => trivial

theorem Move.tracks (move : Move cfg s tls rest δ) (quiet : ∀ e op q, δ.act ≠ .write e op q)
    (linked : StackOk (δ.old ++ rest))
    (bears
      : ∀ spec caller, δ.old = [.ret spec .unwound, caller] → caller.isUser = false
        → caller.bears)
    (live : ∀ c, s.sh.status c = .live → c < s.sh.nCells)
    (recorded : ∀ d, ∀ m ∈ s.sh.commits d, m.op < s.sh.time)
    (past : ∀ op ∈ listed Frame.ops δ.old, op < s.sh.time)
    (tracks : δ.old.Forall (Frame.Tracks P s.sh))
    (sourced : δ.old.Forall (Frame.Sourced SameAddr s.sh))
    (outer : StackOver P s.sh.time (δ.old ++ rest))
    (alike
      : ∀ spec c op cur new calls prev,
        δ.old = [.ret spec (.prot prev), .rcu c op (.casWait cur new calls)]
          → cur.ptr.addr = prev.ptr.addr → prev.ptr.Alike cur.ptr)
    : δ.new.Forall (Frame.Tracks P s.sh) := by
  cases move with
  | frame step => exact step.tracks quiet tracks
  | @resume spec v caller frames waits step =>
      refine step.tracks linked.1 ?_ ?_ tracks.1 sourced.1 tracks.2 outer ?_
      · rintro rfl
        exact bears _ _ rfl waits
      · exact fun op inside => past op (by simp [inside])
      · rintro c op cur new calls prev rfl rfl
        exact alike spec c op cur new calls prev rfl
  | deliver => trivial
  | call _ step => exact step.tracks live recorded

theorem Move.outer (move : Move cfg s tls rest δ) (linked : StackOk (δ.old ++ rest))
    (results
      : ∀ p q op c cur calls others, δ.old = [.closure p] → δ.new = [.ret .plain (.ptr q)]
        → rest = .rcu c op (.closureWait cur calls) :: others → P op p q)
    (tracks : δ.old.Forall (Frame.Tracks P s.sh))
    (sourced : δ.old.Forall (Frame.Sourced SameAddr s.sh))
    (outer : StackOver P s.sh.time (δ.old ++ rest))
    : StackOver P s.sh.time (δ.new ++ rest) := by
  cases move with
  | frame step => exact step.outer outer
  | resume _ step => exact step.outer linked.1 sourced.1 tracks.2 outer
  | deliver => exact outer.2
  | call below step => exact step.outer below results outer

end step

-----------------------------------------------------------------------------------------
-- Every run
-----------------------------------------------------------------------------------------

/-- Whenever the closure of an operation returns, its result is one of the given ones. -/
def Returns (cfg : Config) (P : Results) (s : State) (l : Label) : Prop :=
  ∀ s' c op pc p q rest, step cfg s l = some s'
    → (s.thr l.thread).stack = .closure p :: .rcu c op pc :: rest
    → (s'.thr l.thread).stack = .ret .plain (.ptr q) :: .rcu c op pc :: rest → P op p q

/-- Every frame knows what its operation has written. -/
structure State.Tracked (P : Results) (s : State) : Prop where
  ops : s.OpsOk
  recorded : ∀ d, ∀ m ∈ s.sh.commits d, m.op < s.sh.time
  frames : ∀ t < s.nThr, ∀ fr ∈ (s.thr t).stack, fr.Tracks P s.sh
  outer : ∀ t, StackOver P s.sh.time (s.thr t).stack

section runs

variable {P : Results} {cfg : Config} {s : State} {t : ThreadId} {δ : Change} {rest : List Frame}
  {n : Nat}

theorem State.Tracked.init (n : Nat) : (State.init n).Tracked P where
  ops := .init n
  recorded d m inside := by simp [State.init, Shared.init] at inside
  frames t member fr inside := by simp [State.init, Thread.init] at inside
  outer t := trivial

/-- A guard that is held points to the object at its address. -/
theorem LedgerInv.guarded {sh : Shared} {M : Tokens} (ledger : LedgerInv sh M) {g : Prot}
    (held : g.token ∈ M)
    : g.ptr.Valid sh := by
  rcases g.token_cases with eq | ⟨_, _, eq⟩ <;> rw [eq] at held <;> exact ledger.fine _ held

theorem State.Tracked.after (tracked : s.Tracked P) (ok : s.TxOk) (ledger : LedgerInv s.sh s.tokens)
    (sourced : s.Sourced SameAddr) (member : t < s.nThr) (top : (s.thr t).stack = δ.old ++ rest)
    (move : Move cfg s (s.thr t).tls rest δ)
    (results
      : ∀ p q op c cur calls others, δ.old = [.closure p] → δ.new = [.ret .plain (.ptr q)]
        → rest = .rcu c op (.closureWait cur calls) :: others → P op p q)
    : (s.after t δ rest).Tracked P := by
  have linked : StackOk (δ.old ++ rest) := top ▸ (ok.pool.disciplined t).linked
  have outer : StackOver P s.sh.time (δ.old ++ rest) := top ▸ tracked.outer t
  have old := State.old_of_stacks (tracked.frames t member) top
  have loaded := State.old_of_stacks (sourced.frames t member) top
  have pooled := ok.pool.pooled
  have held (fr) {tok} (inside : fr ∈ δ.old) (token : tok ∈ fr.tokens) : tok ∈ s.tokens :=
    State.mem_shares_of_frame (S := tokenShare) member (top ▸ List.mem_append_left _ inside) token
  have past (op) (own : op ∈ listed Frame.ops δ.old) : op < s.sh.time := by
    obtain ⟨fr, inside, own⟩ := mem_listed.mp own
    apply tracked.ops.past op
    exact State.mem_shares_of_frame (S := opShare) member
      (top ▸ List.mem_append_left _ inside) own
  have writer {e op q} (writes : δ.act = .write e op q) : op ∈ listed Frame.ops δ.old := by
    rcases move.writes writes with ⟨eq, _⟩ | ⟨_, _, _, eq, _⟩ <;> simp [eq, Frame.ops]
  refine ⟨?_, ?_, State.stacks_after ?_ ?_, ?_⟩
  · exact tracked.ops.after pooled member top move (ok.pool.disciplined t).linked
      (ok.calm t member)
  · intro d m inside
    rcases Shared.commits_after inside with before | ⟨op, q, writes, rfl⟩
    · exact Nat.lt_succ_of_lt (tracked.recorded d m before)
    · exact Nat.lt_succ_of_lt (past op (writer writes))
  · intro t' member' fr kept
    have inside : fr ∈ (s.thr t').stack := by
      rcases kept with ⟨rfl, below⟩ | ⟨_, there⟩
      · exact top ▸ List.mem_append_right _ below
      · exact there
    refine (tracked.frames t' member' fr inside).after fun op' own e q writes => ?_
    exact tracked.ops.apart pooled member top move member' kept (writer writes) own rfl
  · by_cases quiet : ∀ e op q, δ.act ≠ .write e op q
    · have new : δ.new.Forall (Frame.Tracks P s.sh) := by
        refine move.tracks quiet linked ?_ ?_ tracked.recorded past old loaded outer ?_
        · intro spec caller eq waits
          have shape : (s.thr t).stack = .ret spec .unwound :: caller :: rest := by
            rw [top, eq]
            rfl
          exact (ok.calm t member).bears shape waits
        · exact fun c live => ok.tx.cells.bound c (by simp [live])
        · intro spec c op cur new calls prev eq same
          have first : prev.ptr.Valid s.sh := ledger.guarded (held (.ret spec (.prot prev))
            (by simp [eq]) (by cases spec <;> exact Multiset.mem_singleton_self _))
          have second : cur.ptr.Valid s.sh := ledger.guarded
            (held (.rcu c op (.casWait cur new calls)) (by simp [eq])
              (Multiset.mem_singleton_self _))
          exact first.alike second same.symm
      exact new.imp fun fr tracks => tracks.after fun op _ => (quiet · op)
    · simp only [ne_eq, not_forall, not_not] at quiet
      obtain ⟨c, op, p, writes⟩ := quiet
      rcases move.writes writes with ⟨_, new⟩ | ⟨cur, guard, same, eq, new⟩
      · rw [new]
        trivial
      · have inside : .cas c op cur p (.exchange guard) ∈ (s.thr t).stack := by simp [top, eq]
        have calm := (ok.calm t member).frame inside (by simp)
        have addr : guard.ptr.addr = cur := calm.settled
        have valid : guard.ptr.Valid s.sh := ledger.guarded
          (held (.cas c op cur p (.exchange guard)) (by simp [eq])
            (by simp [Frame.tokens, CasPc.tokens]))
        have stored : (s.sh.ptr c).Valid s.sh := ledger.cells c (calm.live c rfl)
        obtain ⟨since, none⟩ : CasPc.Tracks s.sh c op cur p (.exchange guard) :=
          tracked.frames t member _ inside
        have early := past op (writer writes)
        rw [new, State.after_sh, writes]
        refine ⟨trivial, since, addr, _, none.write p, ?_, ?_, rfl⟩
        · exact Nat.lt_succ_of_lt early
        · exact stored.alike valid (same.trans addr.symm)
  · intro t'
    rw [State.after_thr, Function.update_apply]
    split
    · exact (move.outer linked results old loaded outer).later (Nat.le_succ _)
    · exact (tracked.outer t').later (Nat.le_succ _)

theorem tracked_of_reaches
    (reached : Reaches (step cfg) (fun s l => Careful cfg s l ∧ Returns cfg P s l)
      (State.init n) s)
    : s.Tracked P := by
  refine reached.invariant (.init n) fun s l s' before tracked allowed taken => ?_
  have careful := before.mono fun _ _ => And.left
  have ok := txOk_of_reaches (fun _ _ => And.left) careful
  have sourced : s.Sourced SameAddr :=
    sourced_of_reaches comparison_sameAddr (careful.mono fun _ _ => adopts_sameAddr)
  have returns := allowed.2 s'
  obtain ⟨δ, rest, member, top, move, rfl⟩ := step_moves taken
  refine tracked.after ok (ledger_of_reaches careful) sourced member top move ?_
  intro p q op c cur calls others old new below
  refine returns c op (.closureWait cur calls) p q others taken ?_ ?_
  · rw [top, old, below]
    rfl
  · rw [State.after_thr, Function.update_self, new, below]
    rfl

end runs

-----------------------------------------------------------------------------------------
-- compare_and_swap
-----------------------------------------------------------------------------------------

/-- When `compare_and_swap` returns, its result says what it has done. Either it has made one
write, which put `new` in the place of the very object that is returned and whose address is the
expected one; or it has written nothing, and the storage held the returned pointer, which is not
the expected one, at some instant during the call.
-/
theorem compare_and_swap_truthful {cfg n s}
    (reached : Reaches (step cfg) (Careful cfg) (State.init n) s) {t c op cur new g}
    (member : t < s.nThr)
    (returned : .ret (.swapped c op cur new) (.prot g) ∈ (s.thr t).stack)
    : (g.ptr.addr = cur ∧ ∃ m, s.sh.Wrote c op [m] ∧ op < m.time ∧ m.old.Alike g.ptr
      ∧ m.new = new)
      ∨ g.ptr.addr ≠ cur ∧ s.sh.Wrote c op []
        ∧ ∃ time, op ≤ time ∧ time ≤ s.sh.time
          ∧ g.ptr.addr = (s.sh.heldAt c time).addr := by
  have tracked : s.Tracked fun _ _ _ => True :=
    tracked_of_reaches
      (reached.mono fun _ _ careful => ⟨careful, fun _ _ _ _ _ _ _ _ _ _ => trivial⟩)
  have sourced : s.Sourced SameAddr :=
    sourced_of_reaches comparison_sameAddr (reached.mono fun _ _ => adopts_sameAddr)
  obtain ⟨⟨src, source, cell, since⟩, outcome⟩ :
      Spec.Tracks s.sh (.swapped c op cur new) (.prot g) :=
    tracked.frames t member _ returned
  refine outcome.imp id ?_
  rintro ⟨differs, none⟩
  have result : Spec.Sourced SameAddr s.sh (.swapped c op cur new) (.prot g) :=
    sourced.frames t member _ returned
  obtain ⟨_, past, time, began, ended, same⟩ := result.prot src source
  rw [cell] at same
  exact ⟨differs, none, time, Nat.le_trans since began, Nat.le_trans ended past, same⟩

/-- A pointer is replaced by `compare_and_swap`. -/
def casSchedule : List Label :=
  [.call 0 (.alloc 16 0), .call 0 (.new 0 100 true), .call 0 (.alloc 20 0),
    .call 0 (.compareAndSwap 0 16 1)]
    ++ List.replicate 33 (.run 0 false)

theorem compare_and_swap_truthful_swapped
    : ∃ (s : State) (m : Commit), s.sh.Wrote 0 3 [m] ∧ m.old.Alike ⟨16, 0, 1⟩
      ∧ m.new = ⟨20, 0, 2⟩ := by
  let g : Prot := ⟨⟨16, 0, 1⟩, some (0, 0), some ⟨0, 3, 12⟩⟩
  have ran
      : (runChecked (step ⟨64, true⟩) (careful ⟨64, true⟩) (State.init 1) casSchedule).map
            (fun s => (s.nThr, (s.thr 0).stack))
          = some (1, [.ret (.swapped 0 3 16 ⟨20, 0, 2⟩) (.prot g)]) := by
    decide +kernel
  obtain ⟨s, ran, eq⟩ := Option.map_eq_some_iff.mp ran
  simp only [Prod.mk.injEq] at eq
  obtain ⟨threads, stack⟩ := eq
  have reached := reaches_of_runChecked (fun _ _ => careful_sound) ran
  have returned
      : .ret (.swapped 0 3 16 ⟨20, 0, 2⟩) (.prot g) ∈ (s.thr 0).stack := by simp [stack]
  have member : 0 < s.nThr := by omega
  rcases compare_and_swap_truthful reached member returned
    with ⟨_, m, wrote, _, old, new⟩ | ⟨other, _⟩
  · exact ⟨s, m, wrote, old, new⟩
  · exact absurd rfl other

-----------------------------------------------------------------------------------------
-- rcu
-----------------------------------------------------------------------------------------

/-- How often the closure has been called. -/
def RcuPc.calls : RcuPc → Nat
  | .loadWait _ | .unwindWait => 0
  | .closureWait _ calls | .casWait _ _ calls | .intoWait _ _ calls | .doneWait _ calls
  | .againWait _ calls => calls

/-- The operation has not written: the closure has not returned, or it has panicked, or somebody
else has been faster.
-/
def RcuPc.unwritten : RcuPc → Prop
  | .loadWait _ | .closureWait _ _ | .againWait _ _ | .unwindWait => True
  | _ => False

/-- A call of `rcu` that returns has made one write, which replaced the very object that is
returned by a result of its closure for this object. As long as its closure runs, and when the
closure has panicked, it has written nothing, however often it has tried.
-/
theorem rcu_writes_once {cfg n s} {P : Results}
    (reached : Reaches (step cfg) (fun s l => Careful cfg s l ∧ Returns cfg P s l)
      (State.init n) s)
    : (∀ t < s.nThr, ∀ c op r calls, .rcu c op (.doneWait r calls) ∈ (s.thr t).stack
        → ∃ m p, s.sh.Wrote c op [m] ∧ op < m.time ∧ m.old.Alike p ∧ r.Alike p
          ∧ P op p m.new)
      ∧ ∀ t < s.nThr, ∀ c op pc, .rcu c op pc ∈ (s.thr t).stack → pc.unwritten
        → s.sh.Wrote c op [] := by
  have tracked := tracked_of_reaches reached
  refine ⟨?_, ?_⟩
  · intro t member c op r calls inside
    obtain ⟨⟨p, _, alike, ⟨m, wrote, late, old, rfl⟩, result⟩, _⟩ :
        RcuPc.Tracks P s.sh c op (.doneWait r calls) :=
      tracked.frames t member _ inside
    exact ⟨m, p, wrote, late, old, alike, result⟩
  · intro t member c op pc inside unwritten
    have tracks : pc.Tracks P s.sh c op := tracked.frames t member _ inside
    cases pc with
    | loadWait | closureWait | againWait => exact tracks.2
    | unwindWait => exact tracks
    | _ => exact unwritten.elim

/-- Whether the result of a closure passes a test. -/
def returnsChecked (cfg : Config) (check : Nat → Ptr → Ptr → Bool) (s : State)
    (l : Label) : Bool :=
  match (s.thr l.thread).stack, (step cfg s l).map fun s' : State => (s'.thr l.thread).stack with
  | .closure p :: .rcu _ op _ :: _, some (.ret .plain (.ptr q) :: _) => check op p q
  | _, _ => true

theorem returnsChecked_sound {cfg check s l} (checked : returnsChecked cfg check s l = true)
    : Returns cfg (fun op p q => check op p q = true) s l := by
  intro s' c op pc p q rest taken top after
  simpa [returnsChecked, top, taken, after] using checked

/-- An object is replaced by one that was made from it. -/
def rcuSchedule : List Label :=
  ([.call 0 (.alloc 16 0), .call 0 (.new 0 100 true), .call 0 (.rcu 0)] : List Label)
    ++ List.replicate 10 (Label.run 0 false)
    ++ ([.call 0 (.alloc 20 0), .call 0 (.closureRet 1)] : List Label)
    ++ List.replicate 37 (Label.run 0 false)

theorem rcu_writes_once_returned
    : ∃ (s : State) (m : Commit) (p : Ptr), s.sh.Wrote 0 2 [m] ∧ m.old.Alike p
      ∧ m.new.prov = p.prov + 1 := by
  let check (_ : Nat) (p q : Ptr) : Bool := q.prov == p.prov + 1
  have ran
      : (runChecked (step ⟨64, true⟩)
            (fun s l => careful ⟨64, true⟩ s l && returnsChecked ⟨64, true⟩ check s l)
            (State.init 1) rcuSchedule).map
            (fun s => (s.nThr, (s.thr 0).stack.getLast?))
          = some (1, some (.rcu 0 2 (.doneWait ⟨16, 0, 1⟩ 1))) := by
    decide +kernel
  obtain ⟨s, ran, eq⟩ := Option.map_eq_some_iff.mp ran
  simp only [Prod.mk.injEq] at eq
  obtain ⟨threads, last⟩ := eq
  have reached := reaches_of_runChecked (fun _ _ both => by
    obtain ⟨careful, returns⟩ := Bool.and_eq_true_iff.mp both
    exact And.intro (careful_sound careful) (returnsChecked_sound returns)) ran
  have member : 0 < s.nThr := by omega
  obtain ⟨m, p, wrote, _, old, _, result⟩ :=
    (rcu_writes_once reached).1 0 member 0 2 _ 1 (List.mem_of_getLast? last)
  exact ⟨s, m, p, wrote, old, by simpa [check] using result⟩

/-- The closure of an `rcu` is called once more only after another operation has written to the
storage during the call; failures of the weak compare-exchange do not count.
-/
theorem rcu_retries_paid {cfg n s} (reached : Reaches (step cfg) (Careful cfg) (State.init n) s)
    {t c op pc} (member : t < s.nThr) (inside : .rcu c op pc ∈ (s.thr t).stack)
    : pc.calls
      ≤ ((s.sh.commits c).filter fun m => op < m.time ∧ m.time ≤ s.sh.time
        ∧ m.op ≠ op).length + 1 := by
  have tracked : s.Tracked fun _ _ _ => True :=
    tracked_of_reaches
      (reached.mono fun _ _ careful => ⟨careful, fun _ _ _ _ _ _ _ _ _ _ => trivial⟩)
  have tracks : pc.Tracks (fun _ _ _ => True) s.sh c op := tracked.frames t member _ inside
  rw [← List.countP_eq_length_filter]
  have later {g src t' calls} (retried : s.sh.Retried c op calls g src t')
      : calls ≤ s.sh.foreign c op s.sh.time + 1 := by
    have mono : s.sh.foreign c op t' ≤ s.sh.foreign c op s.sh.time :=
      Shared.foreign_mono (Nat.le_trans retried.ended retried.past)
    have paid := retried.paid
    omega
  cases pc with
  | loadWait | unwindWait => exact Nat.zero_le _
  | closureWait | casWait =>
      obtain ⟨⟨src, t', retried⟩, _⟩ := tracks
      exact later retried
  | againWait =>
      obtain ⟨⟨src, t', retried⟩, _⟩ := tracks
      exact Nat.le_of_succ_le (later retried)
  | intoWait => exact tracks.2.2
  | doneWait => exact tracks.2

/-- The storage is written to while the closure of an `rcu` runs. -/
def overtakenSchedule : List Label :=
  ([.call 0 (.alloc 16 0), .call 0 (.new 0 100 true), .call 0 (.rcu 0)] : List Label)
    ++ List.replicate 10 (Label.run 0 false)
    ++ ([.call 1 (.alloc 20 0), .call 1 (.store 0 1), .run 1 false, .call 0 (.alloc 24 0),
      .call 0 (.closureRet 2)] : List Label)
    ++ List.replicate 8 (Label.run 0 false)
    ++ ([.call 0 .destructorRet] : List Label)
    ++ List.replicate 4 (Label.run 0 false)

theorem rcu_retries_paid_overtaken
    : ∃ s : State, 2
        ≤ ((s.sh.commits 0).filter fun m => 2 < m.time ∧ m.time ≤ s.sh.time
          ∧ m.op ≠ 2).length + 1 := by
  let g : Prot := ⟨⟨20, 0, 2⟩, some (0, 1), some ⟨0, 18, 23⟩⟩
  have ran
      : (runChecked (step ⟨64, true⟩) (careful ⟨64, true⟩)
          (State.init 2) overtakenSchedule).map
            (fun s => (s.nThr, (s.thr 0).stack))
          = some (2, [.closure ⟨20, 0, 2⟩, .rcu 0 2 (.closureWait g 2)]) := by
    decide +kernel
  obtain ⟨s, ran, eq⟩ := Option.map_eq_some_iff.mp ran
  simp only [Prod.mk.injEq] at eq
  obtain ⟨threads, stack⟩ := eq
  have reached := reaches_of_runChecked (fun _ _ => careful_sound) ran
  have inside : .rcu 0 2 (.closureWait g 2) ∈ (s.thr 0).stack := by simp [stack]
  exact ⟨s, rcu_retries_paid reached (by omega) inside⟩

-----------------------------------------------------------------------------------------
-- Storages that are only updated by rcu
-----------------------------------------------------------------------------------------

/-- The storage that the next step of the frame may write to. -/
def Frame.writesTo : Frame → Option CellId
  | .swap c _ _ | .cas c _ _ _ (.exchange _) => some c
  | _ => none

/-- Nobody but `rcu` writes to the storage. -/
def OnlyRcu (c : CellId) (s : State) (l : Label) : Prop :=
  ∀ fr rest, (s.thr l.thread).stack = fr :: rest → fr.writesTo = some c
    → ∃ op pc others, rest = .rcu c op pc :: others

/-- What the storage was created with. -/
def Shared.initial (sh : Shared) (c : CellId) : Ptr :=
  ((sh.commits c).getLast?.map Commit.old).getD (sh.ptr c)

section composed

variable {V : Type} (val : Nat → V) (f : Nat → V → V) (c : CellId)

/-- The content is what the functions of the writes make of the first content, in the order of the
writes, and no operation has written twice.
-/
structure Shared.Composed (sh : Shared) : Prop where
  value
    : val (sh.ptr c).prov
      = (sh.commits c).foldr (fun m v => f m.op v) (val (sh.initial c).prov)
  once : ((sh.commits c).map Commit.op).Nodup

variable {val f c} {P : Results} {cfg : Config} {s : State} {t : ThreadId} {δ : Change}
  {rest : List Frame} {sh : Shared} {act : Act} {op n : Nat} {p : Ptr}

theorem Shared.Composed.after (composed : sh.Composed val f c)
    (quiet : ∀ op p, act ≠ .write c op p)
    : (sh.after act).Composed val f c := by
  obtain ⟨value, once⟩ := composed
  cases act with
  | write d op p =>
      have apart : c ≠ d := by
        rintro rfl
        exact quiet op p rfl
      refine ⟨?_, ?_⟩ <;> simpa [Shared.after, Act.exec, apart, Shared.initial]
        using by assumption
  | newCell p a useFast =>
      by_cases eq : c = sh.nCells
      · subst eq
        refine ⟨?_, ?_⟩ <;> simp [Shared.after, Act.exec, Shared.initial]
      · refine ⟨?_, ?_⟩ <;> simpa [Shared.after, Act.exec, eq, Shared.initial]
          using by assumption
  | _ => exact ⟨value, once⟩

theorem Shared.Composed.write (composed : sh.Composed val f c) (none : sh.Wrote c op [])
    (result : val p.prov = f op (val (sh.ptr c).prov))
    : (sh.after (.write c op p)).Composed val f c := by
  obtain ⟨value, once⟩ := composed
  have initial : (sh.after (.write c op p)).initial c = sh.initial c := by
    cases eq : sh.commits c <;>
      simp [Shared.initial, Shared.after, Act.exec, eq, List.getLast?_cons]
  refine ⟨?_, ?_⟩
  · rw [initial]
    simp only [Shared.after, Act.exec, Function.update_self, List.foldr_cons]
    rw [result, value]
  · simp only [Shared.after, Act.exec, Function.update_self, List.map_cons, List.nodup_cons]
    refine ⟨fun again => ?_, once⟩
    obtain ⟨m, inside, same⟩ := List.mem_map.mp again
    have own : m ∈ sh.writes c op := List.mem_filter.mpr ⟨inside, by simp [same]⟩
    rw [none.own] at own
    cases own

/-- The write of an `rcu` puts a result of its closure in the place of the closure's argument. -/
theorem State.Tracked.result (tracked : s.Tracked P) (ok : s.TxOk)
    (ledger : LedgerInv s.sh s.tokens) (member : t < s.nThr)
    (top : (s.thr t).stack = δ.old ++ rest) (move : Move cfg s (s.thr t).tls rest δ)
    (writes : δ.act = .write c op p)
    (only : ∀ fr, δ.old = [fr] → fr.writesTo = some c
      → ∃ op pc others, rest = .rcu c op pc :: others)
    : s.sh.Wrote c op [] ∧ ∃ q, P op q p ∧ (s.sh.ptr c).Alike q := by
  have linked : StackOk (δ.old ++ rest) := top ▸ (ok.pool.disciplined t).linked
  have outer : StackOver P s.sh.time (δ.old ++ rest) := top ▸ tracked.outer t
  have held {fr} (inside : fr ∈ (s.thr t).stack) {g : Prot} (token : g.token ∈ fr.tokens)
      : g.ptr.Valid s.sh :=
    ledger.guarded (State.mem_shares_of_frame (S := tokenShare) member inside token)
  rcases move.writes writes with ⟨old, _⟩ | ⟨cur, guard, same, old, _⟩
  · obtain ⟨op', pc, others, rfl⟩ := only _ old rfl
    rw [old] at linked outer
    -- A `swap` is called by user code, not by an `rcu`.
    cases pc with
    | closureWait => exact outer.1.elim
    | loadWait | casWait =>
        rcases linked.1 with eq | eq <;> cases eq
    | intoWait => cases linked.1
    | _ => exact linked.1.elim
  · obtain ⟨op', pc, others, rfl⟩ := only _ old rfl
    rw [old] at linked
    have inside : .cas c op cur p (.exchange guard) ∈ (s.thr t).stack := by simp [top, old]
    have below : .rcu c op' pc ∈ (s.thr t).stack := by simp [top]
    have calm := (ok.calm t member).frame inside (by simp)
    obtain ⟨_, none⟩ : CasPc.Tracks s.sh c op cur p (.exchange guard) :=
      tracked.frames t member _ inside
    cases pc with
    | casWait read new calls =>
        have tracks : RcuPc.Tracks P s.sh c op' (.casWait read new calls) :=
          tracked.frames t member _ below
        have valid : read.ptr.Valid s.sh := held below (Multiset.mem_singleton_self _)
        have stored : (s.sh.ptr c).Valid s.sh := ledger.cells c (calm.live c rfl)
        rcases linked.1 with eq | eq <;> cases eq
        exact ⟨none, read.ptr, tracks.2, stored.alike valid same⟩
    | closureWait =>
        rcases linked.1 with eq | eq | eq <;> cases eq
    | loadWait =>
        rcases linked.1 with eq | eq <;> cases eq
    | intoWait => cases linked.1
    | _ => exact linked.1.elim

/-- No update is lost. If only `rcu` writes to a storage and the closure of each call computes a
function of the content, then the content is what all these functions make of the first content,
one after the other in the order of the writes, each call that returns among them and none twice.
-/
theorem rcu_composes
    (reached
      : Reaches (step cfg)
          (fun s l =>
            Careful cfg s l ∧ Returns cfg (fun op p q => val q.prov = f op (val p.prov)) s l
              ∧ OnlyRcu c s l)
          (State.init n) s)
    : val (s.sh.ptr c).prov
        = (s.sh.commits c).foldr (fun m v => f m.op v) (val (s.sh.initial c).prov)
      ∧ ((s.sh.commits c).map Commit.op).Nodup
      ∧ ∀ t < s.nThr, ∀ op r calls, .rcu c op (.doneWait r calls) ∈ (s.thr t).stack
        → op ∈ (s.sh.commits c).map Commit.op := by
  have composed : s.sh.Composed val f c := by
    refine reached.invariant (I := fun s => s.sh.Composed val f c) ?_ ?_
    · exact ⟨rfl, List.nodup_nil⟩
    · intro s l s' before composed allowed taken
      have careful := before.mono fun _ _ => And.left
      have tracked := tracked_of_reaches (before.mono fun _ _ both => ⟨both.1, both.2.1⟩)
      have ok := txOk_of_reaches (fun _ _ => And.left) careful
      obtain ⟨δ, rest, member, top, move, rfl⟩ := step_moves taken
      rw [State.after_sh]
      by_cases quiet : ∀ op p, δ.act ≠ .write c op p
      · exact composed.after quiet
      · simp only [ne_eq, not_forall, not_not] at quiet
        obtain ⟨op, p, writes⟩ := quiet
        have only (fr) (old : δ.old = [fr]) := allowed.2.2 fr rest (by rw [top, old]; rfl)
        obtain ⟨none, q, result, alike⟩ :=
          tracked.result ok (ledger_of_reaches careful) member top move writes only
        rw [writes]
        exact composed.write none (result.trans (by rw [alike.prov]))
  refine ⟨composed.value, composed.once, ?_⟩
  intro t member op r calls inside
  have tracked := tracked_of_reaches (reached.mono fun _ _ both => ⟨both.1, both.2.1⟩)
  obtain ⟨⟨_, _, _, ⟨m, wrote, _⟩, _⟩, _⟩ :
      RcuPc.Tracks (fun op p q => val q.prov = f op (val p.prov)) s.sh c op (.doneWait r calls) :=
    tracked.frames t member _ inside
  have own : m ∈ s.sh.writes c op := by
    rw [wrote.own]
    exact List.mem_singleton_self m
  obtain ⟨there, same⟩ := List.mem_filter.mp own
  exact List.mem_map.mpr ⟨m, there, by simpa using same⟩

end composed

/-- Whether nobody but `rcu` writes to the storage, computed. -/
def onlyRcuChecked (c : CellId) (s : State) (l : Label) : Bool :=
  match (s.thr l.thread).stack with
  | fr :: .rcu d _ _ :: _ => fr.writesTo != some c || d == c
  | fr :: _ => fr.writesTo != some c
  | [] => true

theorem onlyRcuChecked_sound {c s l} (checked : onlyRcuChecked c s l = true) : OnlyRcu c s l := by
  intro fr rest top writes
  unfold onlyRcuChecked at checked
  rw [top] at checked
  cases rest with
  | nil => simp [writes] at checked
  | cons below others =>
      cases below with
      | rcu d op pc =>
          have same : d = c := by simpa [writes] using checked
          exact ⟨op, pc, others, same ▸ rfl⟩
      | _ => simp [writes] at checked

/-- Each call makes an object with the next number. -/
theorem rcu_composes_returned
    : ∃ s : State, (s.sh.commits 0).length = 1
        ∧ (s.sh.ptr 0).prov
          = (s.sh.commits 0).foldr (fun _ v => v + 1) (s.sh.initial 0).prov := by
  let check (_ : Nat) (p q : Ptr) : Bool := q.prov == p.prov + 1
  have ran
      : (runChecked (step ⟨64, true⟩)
            (fun s l =>
              careful ⟨64, true⟩ s l && returnsChecked ⟨64, true⟩ check s l
                && onlyRcuChecked 0 s l)
            (State.init 1) rcuSchedule).map
            (fun s => (s.sh.commits 0).length)
          = some 1 := by
    decide +kernel
  obtain ⟨s, ran, length⟩ := Option.map_eq_some_iff.mp ran
  have reached
      : Reaches (step ⟨64, true⟩)
          (fun s l =>
            Careful ⟨64, true⟩ s l
              ∧ Returns ⟨64, true⟩
                (fun op p q => id q.prov = (fun _ v => v + 1) op (id p.prov)) s l
              ∧ OnlyRcu 0 s l)
          (State.init 1) s := by
    refine reaches_of_runChecked (fun s l checked => ?_) ran
    simp only [Bool.and_eq_true] at checked
    obtain ⟨⟨careful, returns⟩, only⟩ := checked
    refine ⟨careful_sound careful, ?_, onlyRcuChecked_sound only⟩
    intro s' c op pc p q rest taken top after
    simpa [check] using returnsChecked_sound returns s' c op pc p q rest taken top after
  exact ⟨s, length, (rcu_composes reached).1⟩

end ArcSwap
